import Mathlib.Data.List.Induction
import Mathlib.Data.List.Nodup
import ShiftReduce.Drawing
import ShiftReduce.Proofs.Grammar

/-!
# ShiftReduce.Proofs.Drawing.Rows

**A drawn row can be read back from its table row.** Edges with the same end are drawn as one.
`DrawnEdge.group` is this grouping, and it neither loses nor invents a label
(`DrawnEdge.mem_labelled_group`), nor draws two edges to one place (`DrawnEdge.separate_group`). A
row is drawn in two passes, over its actions and over its states to go to, and the result is the
groups of its moves and of its reductions (`DrawnRow.ofRow_eq`).

An LR(0) row with one reduction at most is drawn with the label `(any)` for it
(`DrawnRow.mem_reductions_lr0`).
-/

namespace ShiftReduce

/-! ### Edges with the same end -/

namespace DrawnEdge

/-- The labels of edges, each with the end of its edge. -/
def labelled (edges : List DrawnEdge) : List (Symbol × Nat) :=
  edges.flatMap fun e => e.labels.map (·, e.target)

/-- The edges that labels with ends are drawn as. -/
def group (pairs : List (Symbol × Nat)) : List DrawnEdge :=
  pairs.foldl (fun edges q => add q.2 q.1 edges) []

variable {edges : List DrawnEdge} {pairs : List (Symbol × Nat)} {s : Symbol} {m : Nat}

theorem mem_addLabel {e : DrawnEdge} {label : Symbol} :
    s ∈ (e.addLabel label).labels ↔ s = label ∨ s ∈ e.labels := by
  unfold addLabel
  split
  · rename_i h
    refine ⟨Or.inr, fun hs => hs.elim (fun heq => ?_) id⟩
    exact heq ▸ List.contains_iff_mem.mp h
  · simp [or_comm]

theorem target_addLabel (e : DrawnEdge) (label : Symbol) :
    (e.addLabel label).target = e.target := by
  unfold addLabel
  split <;> rfl

theorem nodup_addLabel {e : DrawnEdge} (h : e.labels.Nodup) (label : Symbol) :
    (e.addLabel label).labels.Nodup := by
  unfold addLabel
  split
  · exact h
  · rename_i hnew
    have hnotMem : label ∉ e.labels := fun hmem => hnew (List.contains_iff_mem.mpr hmem)
    exact List.nodup_append'.mpr ⟨h, List.nodup_singleton _, by simpa using hnotMem⟩

/-- An edge is added with its label, and everything else stays. -/
theorem mem_labelled_add {label : Symbol} {target : Nat} :
    (s, m) ∈ labelled (add target label edges) ↔
      (s, m) = (label, target) ∨ (s, m) ∈ labelled edges := by
  induction edges with
  | nil => simp [add, labelled]
  | cons e rest ih =>
      rw [add]
      split
      · rename_i htarget
        simp only [labelled, List.flatMap_cons, List.mem_append, List.mem_map, target_addLabel,
          mem_addLabel, Prod.mk.injEq, htarget]
        constructor
        · rintro (⟨x, rfl | hx, rfl, rfl⟩ | h)
          · exact Or.inl ⟨rfl, rfl⟩
          · exact Or.inr (Or.inl ⟨x, hx, rfl, rfl⟩)
          · exact Or.inr (Or.inr h)
        · rintro (⟨rfl, rfl⟩ | ⟨x, hx, rfl, rfl⟩ | h)
          · exact Or.inl ⟨s, Or.inl rfl, rfl, rfl⟩
          · exact Or.inl ⟨x, Or.inr hx, rfl, rfl⟩
          · exact Or.inr h
      · have hcons : ∀ l, labelled (e :: l) = e.labels.map (·, e.target) ++ labelled l :=
          fun _ => rfl
        rw [hcons, hcons, List.mem_append, List.mem_append, ih]
        exact or_left_comm

/-- An edge to a new place comes last, and no other place is added. -/
theorem map_target_add {label : Symbol} {target : Nat} :
    (add target label edges).map DrawnEdge.target =
      if target ∈ edges.map DrawnEdge.target then edges.map DrawnEdge.target
      else edges.map DrawnEdge.target ++ [target] := by
  induction edges with
  | nil => rfl
  | cons e rest ih =>
      rw [add]
      split
      · rename_i htarget
        simp [target_addLabel, htarget]
      · rename_i htarget
        have hne : target ≠ e.target := fun heq => htarget heq.symm
        rw [List.map_cons, ih, List.map_cons]
        simp only [List.mem_cons, hne, false_or]
        split <;> rfl

/-- No two edges have the same end, and no edge has a label twice. -/
structure Separate (edges : List DrawnEdge) : Prop where
  targets : (edges.map DrawnEdge.target).Nodup
  labels : ∀ e ∈ edges, e.labels.Nodup

theorem Separate.add (h : Separate edges) (target : Nat) (label : Symbol) :
    Separate (DrawnEdge.add target label edges) := by
  refine ⟨?_, ?_⟩
  · rw [map_target_add]
    split
    · exact h.targets
    · rename_i hnew
      exact List.nodup_append'.mpr ⟨h.targets, List.nodup_singleton _, by simpa using hnew⟩
  · replace h := h.labels
    induction edges with
    | nil => simp [DrawnEdge.add]
    | cons e rest ih =>
        obtain ⟨he, hrest⟩ := List.forall_mem_cons.mp h
        rw [DrawnEdge.add]
        split
        · exact List.forall_mem_cons.mpr ⟨nodup_addLabel he label, hrest⟩
        · exact List.forall_mem_cons.mpr ⟨he, ih hrest⟩

theorem separate_group (pairs : List (Symbol × Nat)) : Separate (group pairs) :=
  List.foldlRecOn pairs _ ⟨.nil, by simp⟩ fun _ h q _ => h.add q.2 q.1

theorem group_append_singleton (q : Symbol × Nat) :
    group (pairs ++ [q]) = add q.2 q.1 (group pairs) := by
  rw [group, List.foldl_append]
  rfl

/-- Grouping keeps every label with its end. -/
theorem mem_labelled_group : (s, m) ∈ labelled (group pairs) ↔ (s, m) ∈ pairs := by
  induction pairs using List.reverseRecOn with
  | nil => simp [group, labelled]
  | append_singleton pairs q ih =>
      rw [group_append_singleton, mem_labelled_add, ih, List.mem_append, List.mem_singleton,
        or_comm]

theorem mem_map_target_group : m ∈ (group pairs).map DrawnEdge.target ↔ ∃ s, (s, m) ∈ pairs := by
  induction pairs using List.reverseRecOn with
  | nil => simp [group]
  | append_singleton pairs q ih =>
      obtain ⟨label, target⟩ := q
      rw [group_append_singleton, map_target_add]
      split
      · rename_i hold
        rw [ih]
        constructor
        · rintro ⟨s, hs⟩
          exact ⟨s, List.mem_append_left _ hs⟩
        · rintro ⟨s, hs⟩
          rcases List.mem_append.mp hs with hs | hs
          · exact ⟨s, hs⟩
          · cases List.mem_singleton.mp hs
            exact ih.mp hold
      · simp [ih, exists_or]

/-- Labels with one end are drawn as one edge. -/
theorem group_eq_singleton {r : Nat} (hne : pairs ≠ []) (hsame : ∀ q ∈ pairs, q.2 = r) :
    ∃ e, group pairs = [e] ∧ e.target = r := by
  have hend : ∀ e ∈ group pairs, e.target = r := by
    intro e he
    obtain ⟨s, hs⟩ := mem_map_target_group.mp (List.mem_map_of_mem he)
    exact hsame _ hs
  cases hgroup : group pairs with
  | nil =>
      obtain ⟨⟨s, m⟩, hq⟩ := List.exists_mem_of_ne_nil pairs hne
      have hm := mem_map_target_group.mpr ⟨s, hq⟩
      simp [hgroup] at hm
  | cons e rest =>
      rw [hgroup] at hend
      refine ⟨e, ?_, hend e (by simp)⟩
      cases rest with
      | nil => rfl
      | cons e' rest =>
          -- a second edge would have the same end
          have htargets := (separate_group pairs).targets
          rw [hgroup, List.map_cons, List.map_cons, hend e (by simp), hend e' (by simp)] at htargets
          simp at htargets

theorem Separate.nodup_labelled (h : Separate edges) : (labelled edges).Nodup := by
  refine List.nodup_flatMap.mpr ⟨fun e he => ?_, ?_⟩
  · exact (h.labels e he).map fun s s' heq => congrArg Prod.fst heq
  · refine (List.pairwise_map.mp h.targets).imp fun {e e'} hne q hq hq' => hne ?_
    obtain ⟨s, -, rfl⟩ := List.mem_map.mp hq
    obtain ⟨s', -, heq⟩ := List.mem_map.mp hq'
    exact (congrArg Prod.snd heq).symm

end DrawnEdge

/-! ### Rows -/

namespace Row

/-- The lookaheads on which cells accept. -/
def acceptsOf (cells : List (Symbol × Action)) : List Symbol :=
  cells.filterMap fun (s, action) => if action = .accept then some s else none

/-- The reductions of cells. -/
def reductionsOf (cells : List (Symbol × Action)) : List (Symbol × Nat) :=
  cells.filterMap fun (s, action) => action.reduceRule.toOption.map (s, ·)

/-- The shifts of cells. -/
def shiftsOf (cells : List (Symbol × Action)) : List (Symbol × Nat) :=
  cells.filterMap fun (s, action) => action.shiftTarget.toOption.map (s, ·)

/-- The shifts of a row and its states to go to, but not that of the goal symbol. -/
def moves (row : Row) : List (Symbol × Nat) :=
  shiftsOf row.actions.toList ++ row.gotos.toList.filter (·.1 ≠ Symbol.goal)

variable {row : Row} {s : Symbol} {m : Nat}

theorem mem_acceptsOf : s ∈ acceptsOf row.actions.toList ↔ row.actions[s]? = some .accept := by
  simp only [acceptsOf, List.mem_filterMap, Prod.exists,
    Std.ExtTreeMap.mem_toList_iff_getElem?_eq_some, Option.ite_none_right_eq_some,
    Option.some.injEq]
  constructor
  · rintro ⟨_, _, h, rfl, rfl⟩
    exact h
  · intro h
    exact ⟨s, .accept, h, rfl, rfl⟩

theorem mem_reductionsOf :
    (s, m) ∈ reductionsOf row.actions.toList ↔ row.actions[s]? = some (.reduce m) := by
  simp only [reductionsOf, List.mem_filterMap, Prod.exists,
    Std.ExtTreeMap.mem_toList_iff_getElem?_eq_some, Option.map_eq_some_iff, Prod.mk.injEq]
  constructor
  · rintro ⟨_, action, h, _, hrule, rfl, rfl⟩
    cases action <;> cases hrule
    exact h
  · intro h
    exact ⟨s, _, h, m, rfl, rfl, rfl⟩

theorem mem_moves : (s, m) ∈ row.moves ↔
    row.actions[s]? = some (.shift m) ∨ row.gotos[s]? = some m ∧ s ≠ Symbol.goal := by
  simp only [moves, shiftsOf, List.mem_append, List.mem_filterMap, List.mem_filter, Prod.exists,
    Std.ExtTreeMap.mem_toList_iff_getElem?_eq_some, Option.map_eq_some_iff, Prod.mk.injEq,
    decide_eq_true_eq]
  refine or_congr_left ⟨?_, fun h => ⟨s, _, h, m, rfl, rfl, rfl⟩⟩
  rintro ⟨_, action, h, _, htarget, rfl, rfl⟩
  cases action <;> cases htarget
  exact h

theorem nodup_acceptsOf (row : Row) : (acceptsOf row.actions.toList).Nodup := by
  refine List.pairwise_filterMap.mpr (Std.ExtTreeMap.distinct_keys_toList.imp ?_)
  rintro ⟨s, action⟩ ⟨s', action'⟩ hne x hx x' hx' rfl
  obtain ⟨-, hs⟩ := Option.ite_none_right_eq_some.mp hx
  obtain ⟨-, hs'⟩ := Option.ite_none_right_eq_some.mp hx'
  exact hne (Option.some.inj (hs.trans hs'.symm) ▸ Std.ReflCmp.compare_self)

end Row

namespace DrawnRow

/-- The actions of a row are drawn one after the other. -/
theorem foldl_addAction (cells : List (Symbol × Action)) (d : DrawnRow) :
    cells.foldl (fun d (symbol, action) => d.addAction symbol action) d =
      ⟨d.accepting ++ Row.acceptsOf cells,
        (Row.reductionsOf cells).foldl (fun edges q => DrawnEdge.add q.2 q.1 edges) d.reductions,
        (Row.shiftsOf cells).foldl (fun edges q => DrawnEdge.add q.2 q.1 edges) d.moves⟩ := by
  induction cells generalizing d with
  | nil => simp [Row.acceptsOf, Row.reductionsOf, Row.shiftsOf]
  | cons cell cells ih =>
      obtain ⟨s, action⟩ := cell
      rw [List.foldl_cons, ih]
      cases action <;>
        simp [addAction, Row.acceptsOf, Row.reductionsOf, Row.shiftsOf, Action.reduceRule,
          Action.shiftTarget, Except.toOption]

/-- The states to go to are drawn after them. -/
theorem foldl_addGoto (cells : List (Symbol × Nat)) (d : DrawnRow) :
    cells.foldl (fun d (symbol, target) => d.addGoto symbol target) d =
      ⟨d.accepting, d.reductions, (cells.filter (·.1 ≠ Symbol.goal)).foldl
        (fun edges q => DrawnEdge.add q.2 q.1 edges) d.moves⟩ := by
  induction cells generalizing d with
  | nil => rfl
  | cons cell cells ih =>
      obtain ⟨s, target⟩ := cell
      rw [List.foldl_cons, ih]
      by_cases hs : s = Symbol.goal <;> simp [addGoto, hs]

/-- A row is drawn with one edge to each end. -/
theorem ofRow_eq (mode : Mode) (row : Row) : ofRow mode row =
    (⟨Row.acceptsOf row.actions.toList, DrawnEdge.group (Row.reductionsOf row.actions.toList),
      DrawnEdge.group row.moves⟩ : DrawnRow).relabel mode := by
  rw [ofRow, foldl_addAction, foldl_addGoto]
  simp only [empty, List.nil_append, DrawnEdge.group, Row.moves, List.foldl_append]

/-- The new label is one of a reduction. -/
theorem relabel_eq (mode : Mode) (d : DrawnRow) :
    d.relabel mode = { d with reductions := (d.relabel mode).reductions } := by
  unfold relabel
  split <;> rfl

@[simp] theorem accepting_ofRow (mode : Mode) (row : Row) :
    (ofRow mode row).accepting = Row.acceptsOf row.actions.toList := by
  rw [ofRow_eq, relabel_eq]

@[simp] theorem moves_ofRow (mode : Mode) (row : Row) :
    (ofRow mode row).moves = DrawnEdge.group row.moves := by
  rw [ofRow_eq, relabel_eq]

/-- Where an LR(0) row has no two reductions, the one that it has is drawn with the new label. -/
theorem mem_reductions_lr0 {row : Row} (hsame : ∀ q ∈ Row.reductionsOf row.actions.toList,
    ∀ q' ∈ Row.reductionsOf row.actions.toList, q.2 = q'.2) {e : DrawnEdge} :
    e ∈ (ofRow .lr0 row).reductions ↔
      e.labels = [anyLabel] ∧ ∃ s : Symbol, row.actions[s]? = some (.reduce e.target) := by
  obtain ⟨r, labels⟩ := e
  simp only [← Row.mem_reductionsOf]
  rw [ofRow_eq]
  cases hpairs : Row.reductionsOf row.actions.toList with
  | nil => simp [DrawnEdge.group, relabel]
  | cons q rest =>
      rw [hpairs] at hsame
      obtain ⟨e, hgroup, htarget⟩ :=
        DrawnEdge.group_eq_singleton (List.cons_ne_nil q rest) fun q' hq' =>
          hsame q' hq' q (by simp)
      simp only [hgroup, relabel, htarget, List.mem_singleton, DrawnEdge.mk.injEq]
      constructor
      · rintro ⟨rfl, rfl⟩
        exact ⟨rfl, q.1, by simp⟩
      · rintro ⟨hlabels, s, hs⟩
        exact ⟨(hsame q (by simp) _ hs).symm, hlabels⟩

/-- So it has the label for exactly the production that it reduces by. -/
theorem any_iff {row : Row} (hsame : ∀ q ∈ Row.reductionsOf row.actions.toList,
    ∀ q' ∈ Row.reductionsOf row.actions.toList, q.2 = q'.2) {r : Nat} :
    (∃ e ∈ (ofRow .lr0 row).reductions, e.target = r ∧ anyLabel ∈ e.labels) ↔
      ∃ s : Symbol, row.actions[s]? = some (.reduce r) := by
  simp only [mem_reductions_lr0 hsame]
  constructor
  · rintro ⟨e, ⟨-, hs⟩, rfl, -⟩
    exact hs
  · intro hs
    exact ⟨⟨r, [anyLabel]⟩, ⟨rfl, hs⟩, rfl, by simp⟩

end DrawnRow

end ShiftReduce
