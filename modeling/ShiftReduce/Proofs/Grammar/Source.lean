import Mathlib.Data.List.Basic
import ShiftReduce.Grammar.Source
import ShiftReduce.Proofs.Grammar

/-!
# ShiftReduce.Proofs.Grammar.Source

**What the reader of grammar texts is made of.** A text is cut at newlines, at blanks and at its
first arrow (`Text.lines_flatMap_line`, `Text.trim_eq_self`, `Text.splitArrow?_eq_some`).

A right-hand side is scanned byte by byte. `Source.advance` is what a byte of a symbol does to the
open quote, and the scan takes bytes that advance into the pending symbol
(`Source.scanAlternatives_append`).

The productions of a text are grouped by their left-hand sides, one left-hand side at a time
(`Source.groupByLhs_cons`).
-/

namespace ShiftReduce

/-! ### Cuts of texts -/

namespace Text

theorem newline_notMem_of_mem_lines {t : Text} : ∀ l ∈ t.lines, '\n'.toUInt8 ∉ l := by
  fun_induction lines t with
  | case1 => simp
  | case2 t ih => simpa using ih
  | case3 b t hb hlines ih => simpa using Ne.symm hb
  | case4 b t hb l ls hlines ih =>
      rw [hlines] at ih
      obtain ⟨hl, hls⟩ := List.forall_mem_cons.mp ih
      refine List.forall_mem_cons.mpr ⟨fun hmem => ?_, hls⟩
      exact (List.mem_cons.mp hmem).elim (Ne.symm hb) hl

theorem lines_line_append {l : Text} (h : '\n'.toUInt8 ∉ l) (t : Text) :
    (line l ++ t).lines = l :: t.lines := by
  induction l with
  | nil => rfl
  | cons b l ih =>
      have hb : b ≠ '\n'.toUInt8 := fun heq => h (heq ▸ List.mem_cons_self)
      have hl : '\n'.toUInt8 ∉ l := fun hmem => h (List.mem_cons_of_mem b hmem)
      show lines (b :: (line l ++ t)) = (b :: l) :: lines t
      rw [lines, if_neg hb, ih hl]

/-- Lines that hold no newline are the lines of the text that they make. -/
theorem lines_flatMap_line {α : Type} {f : α → Text} {xs : List α}
    (h : ∀ x ∈ xs, '\n'.toUInt8 ∉ f x) : lines (xs.flatMap fun x => line (f x)) = xs.map f := by
  induction xs with
  | nil => rfl
  | cons x xs ih =>
      obtain ⟨hx, hxs⟩ := List.forall_mem_cons.mp h
      rw [List.flatMap_cons, lines_line_append hx, ih hxs, List.map_cons]

theorem dropWhile_isBlank {t : Text} (h : ∀ b ∈ t.head?, isBlank b = false) :
    t.dropWhile isBlank = t := by
  cases t with
  | nil => rfl
  | cons b t => rw [List.dropWhile_cons, h b rfl, if_neg Bool.false_ne_true]

theorem trim_isPrefix_dropWhile (t : Text) : t.trim <+: t.dropWhile isBlank := by
  rw [trim, ← List.reverse_suffix, List.reverse_reverse]
  exact List.dropWhile_suffix isBlank

/-- A text that does not start with a blank only loses blanks at its end. -/
theorem trim_isPrefix {t : Text} (h : ∀ b ∈ t.head?, isBlank b = false) : t.trim <+: t := by
  have hprefix := t.trim_isPrefix_dropWhile
  rwa [dropWhile_isBlank h] at hprefix

theorem trim_eq_self {t : Text} (hhead : ∀ b ∈ t.head?, isBlank b = false)
    (hlast : ∀ b ∈ t.getLast?, isBlank b = false) : t.trim = t := by
  rw [← List.head?_reverse] at hlast
  rw [trim, dropWhile_isBlank hhead, dropWhile_isBlank hlast, List.reverse_reverse]

theorem head?_trim {t : Text} : ∀ b ∈ t.trim.head?, isBlank b = false := by
  intro b hb
  have hhead : (t.dropWhile isBlank).head? = some b := by
    obtain ⟨rest, hrest⟩ := t.trim_isPrefix_dropWhile
    rw [← hrest, List.head?_append, hb]
    rfl
  have hnot := List.head?_dropWhile_not isBlank t
  rwa [hhead] at hnot

theorem trim_subset (t : Text) : t.trim ⊆ t :=
  List.Subset.trans t.trim_isPrefix_dropWhile.subset (List.dropWhile_suffix isBlank).subset

theorem trim_cons_blank {b : UInt8} (hb : isBlank b = true) (t : Text) :
    trim (b :: t) = t.trim := by
  rw [trim, List.dropWhile_cons_of_pos hb, ← trim]

theorem trim_concat_blank {b : UInt8} (hb : isBlank b = true) (t : Text) :
    trim (t ++ [b]) = t.trim := by
  rw [trim, trim, List.dropWhile_append]
  split
  · rename_i hall
    rw [List.isEmpty_iff.mp hall, List.dropWhile_cons_of_pos hb]
    rfl
  · rw [List.reverse_append, List.reverse_singleton, List.singleton_append,
      List.dropWhile_cons_of_pos hb]

/-- A blank after a text without blanks is cut off again. -/
theorem trim_append_blank {t : Text} (h : ∀ b ∈ t, isBlank b = false) {b : UInt8}
    (hb : isBlank b = true) : trim (t ++ [b]) = t := by
  rw [trim_concat_blank hb]
  exact trim_eq_self (fun c hc => h c (List.mem_of_mem_head? hc))
    fun c hc => h c (List.mem_of_getLast? hc)

/-- The first arrow, the bytes 45 and 62, is the one with no arrow before it. -/
theorem splitArrow?_eq_some {t left right : Text} :
    t.splitArrow? = some (left, right) ↔ t = left ++ 45 :: 62 :: right ∧ ¬ [45, 62] <:+: left := by
  fun_induction splitArrow? t generalizing left with
  | case1 => simp
  | case2 rest =>
      constructor
      · intro heq
        cases heq
        exact ⟨rfl, by simp⟩
      · intro ⟨heq, hleft⟩
        rcases left with _ | ⟨a, _ | ⟨b, left⟩⟩
        · cases heq
          rfl
        · exact absurd heq (by simp)
        · cases heq
          exact absurd ⟨[], left, rfl⟩ hleft
  | case3 b t hne ih =>
      rw [Option.map_eq_some_iff]
      constructor
      · intro ⟨⟨left', right'⟩, hsplit, heq⟩
        cases heq
        obtain ⟨rfl, hleft⟩ := ih.mp hsplit
        refine ⟨rfl, fun hinfix => ?_⟩
        rcases List.infix_cons_iff.mp hinfix with hprefix | hinfix
        · obtain ⟨rfl, rest, rfl⟩ := List.cons_prefix_cons.mp hprefix
          exact hne _ rfl rfl
        · exact hleft hinfix
      · intro ⟨heq, hleft⟩
        cases left with
        | nil =>
            cases heq
            exact (hne _ rfl rfl).elim
        | cons a left =>
            cases heq
            have hrest : ¬ [45, 62] <:+: left := fun hinfix =>
              hleft (List.infix_cons_iff.mpr (Or.inr hinfix))
            exact ⟨(left, right), ih.mpr ⟨rfl, hrest⟩, rfl⟩

/-- Only a text with an arrow is split at one. -/
theorem splitArrow?_eq_none {t : Text} : t.splitArrow? = none ↔ ¬ [45, 62] <:+: t := by
  constructor
  · intro h
    fun_induction splitArrow? t with
    | case1 => simp
    | case2 rest => cases h
    | case3 b t hne ih =>
        intro hinfix
        rcases List.infix_cons_iff.mp hinfix with hprefix | hinfix
        · obtain ⟨rfl, rest, rfl⟩ := List.cons_prefix_cons.mp hprefix
          exact hne _ rfl rfl
        · exact ih (Option.map_eq_none_iff.mp h) hinfix
  · intro h
    cases hsplit : t.splitArrow? with
    | none => rfl
    | some sides =>
        obtain ⟨heq, -⟩ := splitArrow?_eq_some.mp hsplit
        exact absurd ⟨sides.1, sides.2, by simp [heq]⟩ h

theorem mem_join {separator : Text} {parts : List Text} {b : UInt8}
    (h : b ∈ join separator parts) : b ∈ separator ∨ ∃ part ∈ parts, b ∈ part := by
  induction parts with
  | nil => cases h
  | cons part parts ih =>
      by_cases hparts : parts = []
      · subst hparts
        rw [join, List.intercalate_singleton] at h
        exact Or.inr ⟨part, List.mem_cons_self, h⟩
      · rw [join, List.intercalate_cons_of_ne_nil hparts, List.mem_append, List.mem_append] at h
        rcases h with (h | h) | h
        · exact Or.inr ⟨part, List.mem_cons_self, h⟩
        · exact Or.inl h
        · refine (ih h).imp_right fun ⟨part', hpart', hb⟩ => ?_
          exact ⟨part', List.mem_cons_of_mem _ hpart', hb⟩

/-- Joined parts start with the first of them. -/
theorem exists_join_cons_eq (separator part : Text) (parts : List Text) :
    ∃ back, join separator (part :: parts) = part ++ back := by
  cases parts with
  | nil => exact ⟨[], by rw [join, List.intercalate_singleton, List.append_nil]⟩
  | cons part' parts =>
      exact ⟨_, by rw [join, List.intercalate_cons_cons, List.append_assoc]⟩

/-- Joined parts end with one of them. -/
theorem exists_join_eq (separator : Text) {parts : List Text} (h : parts ≠ []) :
    ∃ front, ∃ part ∈ parts, join separator parts = front ++ part := by
  induction parts with
  | nil => exact absurd rfl h
  | cons part parts ih =>
      by_cases hparts : parts = []
      · subst hparts
        exact ⟨[], part, List.mem_cons_self, List.intercalate_singleton⟩
      · obtain ⟨front, last, hlast, heq⟩ := ih hparts
        refine ⟨part ++ separator ++ front, last, List.mem_cons_of_mem _ hlast, ?_⟩
        rw [join, List.intercalate_cons_of_ne_nil hparts, ← join, heq, ← List.append_assoc]

end Text

/-! ### The scan -/

namespace Source

/-- What a byte of a symbol does to the open quote. A blank or a bar outside of quotes is no byte of
a symbol. -/
def advance (quote : Option UInt8) (b : UInt8) : Option (Option UInt8) :=
  match quote with
  | some q => some (if b = q then none else some q)
  | none =>
    if b = '|'.toUInt8 ∨ Text.isBlank b = true then none
    else some (if isQuote b then some b else none)

theorem advance_eq_some {quote next : Option UInt8} {b : UInt8} :
    advance quote b = some next ↔ (∃ q, quote = some q ∧ next = if b = q then none else some q) ∨
      quote = none ∧ b ≠ '|'.toUInt8 ∧ Text.isBlank b = false ∧
        next = if isQuote b then some b else none := by
  cases quote with
  | some q =>
      simp only [advance]
      grind
  | none =>
      by_cases hdivider : b = '|'.toUInt8 ∨ Text.isBlank b = true
      · simp only [advance, if_pos hdivider]
        grind
      · simp only [advance, if_neg hdivider]
        grind

theorem foldlM_advance_concat (quote : Option UInt8) (w : Text) (b : UInt8) :
    (w ++ [b]).foldlM advance quote = (w.foldlM advance quote).bind (advance · b) := by
  rw [List.foldlM_append]
  simp

theorem isBlank_of_isQuote {b : UInt8} (h : isQuote b = true) : Text.isBlank b = false := by
  have hcases : b = 39 ∨ b = 34 := by simpa [isQuote] using h
  rcases hcases with rfl | rfl <;> decide

/-- The scan reads a byte of a symbol into the pending symbol. -/
theorem scanAlternatives_advance {quote next : Option UInt8} {b : UInt8}
    (h : advance quote b = some next) (pending : Text) (symbols : List Symbol) (raw rest : Text) :
    scanAlternatives quote pending symbols raw (b :: rest) =
      scanAlternatives next (pending ++ [b]) symbols (raw ++ [b]) rest := by
  obtain ⟨q, rfl, rfl⟩ | ⟨rfl, hbar, hblank, rfl⟩ := advance_eq_some.mp h
  · rw [scanAlternatives]
  · rw [scanAlternatives, if_neg hbar, hblank, if_neg Bool.false_ne_true]

theorem scanAlternatives_append {w : Text} (symbols : List Symbol) (rest : Text) :
    ∀ {quote next : Option UInt8} (pending raw : Text), w.foldlM advance quote = some next →
      scanAlternatives quote pending symbols raw (w ++ rest) =
        scanAlternatives next (pending ++ w) symbols (raw ++ w) rest := by
  induction w with
  | nil =>
      intro quote next pending raw h
      cases h
      simp
  | cons b w ih =>
      intro quote next pending raw h
      obtain ⟨quote', hb, hw⟩ := Option.bind_eq_some_iff.mp h
      rw [List.cons_append, scanAlternatives_advance hb, ih _ _ hw]
      simp

/-! ### Grouping -/

/-- The productions of the first left-hand side come first, then the others are grouped. -/
theorem groupByLhs_cons (p : Production) (rules : List Production) :
    groupByLhs (p :: rules) = p :: rules.filter (·.lhs == p.lhs) ++
      groupByLhs (rules.filter (!·.lhs == p.lhs)) := by
  have hothers : (rules.map (·.lhs)).filter (!· == p.lhs) =
      (rules.filter (!·.lhs == p.lhs)).map (·.lhs) := List.filter_map
  have hfirst : (p :: rules).filter (·.lhs == p.lhs) = p :: rules.filter (·.lhs == p.lhs) :=
    List.filter_cons_of_pos (beq_self_eq_true p.lhs)
  rw [groupByLhs, List.map_cons, List.eraseDups_cons, hothers, List.flatMap_cons, hfirst]
  refine congrArg _ (List.flatMap_congr fun lhs hlhs => ?_)
  obtain ⟨q, hq, rfl⟩ := List.mem_map.mp (List.mem_eraseDups.mp hlhs)
  have hne : q.lhs ≠ p.lhs := by simpa using (List.mem_filter.mp hq).2
  rw [List.filter_cons_of_neg (by simpa using Ne.symm hne), List.filter_filter]
  refine List.filter_congr fun r _ => ?_
  by_cases hr : r.lhs = q.lhs
  · simp [hr, hne]
  · simp [hr]

theorem mem_groupByLhs {rules : List Production} {p : Production} :
    p ∈ groupByLhs rules ↔ p ∈ rules := by
  simp only [groupByLhs, List.mem_flatMap, List.mem_eraseDups, List.mem_map, List.mem_filter]
  constructor
  · intro ⟨_, _, hp, _⟩
    exact hp
  · intro hp
    exact ⟨p.lhs, ⟨p, hp, rfl⟩, hp, beq_self_eq_true _⟩

/-- The first left-hand side is not among those that are grouped after it. -/
theorem lhs_ne_of_mem_groupByLhs {p q : Production} {rules : List Production}
    (h : q ∈ groupByLhs (rules.filter (!·.lhs == p.lhs))) : q.lhs ≠ p.lhs := by
  simpa using (List.mem_filter.mp (mem_groupByLhs.mp h)).2

end Source

end ShiftReduce
