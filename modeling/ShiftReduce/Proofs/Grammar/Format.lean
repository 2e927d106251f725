import ShiftReduce.Proofs.Grammar.Quoting

/-!
# ShiftReduce.Proofs.Grammar.Format

**What a grammar text says is the sum of what its lines say.** A line is skipped, or its first arrow
divides it into two sides (`Source.Divides`). Such a line is faulty (`Source.Faulty`), or it
contributes one production for each alternative of its right side (`Source.Contributes`).

None of this mentions the reader. `Source.readLine_error` and `Source.Contributes.readLine` say what
it makes of a line, inductions over the lines lift both to a text, where the first faulty line
decides, and `Source.grouped_groupByLhs` says in which order the productions come out. The main
statement is `Source.readRules_lines`.
-/

namespace ShiftReduce

/-! ### Lines -/

/-- The lines of a text: a newline follows each of them, but need not follow the last. -/
inductive Text.Divided : Text → List Text → Prop
  | nil : Divided [] []
  | last {l : Text} (hne : l ≠ []) (hl : '\n'.toUInt8 ∉ l) : Divided l [l]
  | line {l t : Text} {ls : List Text} (hl : '\n'.toUInt8 ∉ l) (ht : Divided t ls) :
      Divided (Text.line l ++ t) (l :: ls)

theorem Text.divided_lines (t : Text) : Divided t t.lines := by
  fun_induction lines t with
  | case1 => exact .nil
  | case2 t ih => exact .line (l := []) List.not_mem_nil ih
  | case3 b t hb hlines ih =>
      rw [hlines] at ih
      cases ih
      exact .last (List.cons_ne_nil _ _) (by simpa using Ne.symm hb)
  | case4 b t hb l ls hlines ih =>
      have hcons : ∀ {l : Text}, '\n'.toUInt8 ∉ l → '\n'.toUInt8 ∉ b :: l :=
        fun hl hmem => (List.mem_cons.mp hmem).elim (Ne.symm hb) hl
      rw [hlines] at ih
      cases ih with
      | last hne hl => exact .last (List.cons_ne_nil _ _) (hcons hl)
      | line hl ht => exact .line (hcons hl) ht

namespace GrammarError

/-- Where in a grammar text the fault is. -/
def place? : GrammarError → Option Position
  | .missingLhs place => some place
  | .compoundLhs _ place => some place
  | .openQuote _ place => some place
  | .empty => none
  | .badSymbol _ _ => none

/-- The error is about a place on the line with the given number, and its message says so. -/
def Names (e : GrammarError) (number : Nat) : Prop :=
  ∃ place, e.place? = some place ∧ place.line.toNat = number ∧
    ∃ detail, e.message = located place detail

theorem names_of_place? {e : GrammarError} {place : Position} {number : Nat}
    (h : e.place? = some place) (hline : place.line.toNat = number) : e.Names number := by
  refine ⟨place, h, hline, ?_⟩
  cases e with
  | missingLhs => cases h; exact ⟨_, rfl⟩
  | compoundLhs => cases h; exact ⟨_, rfl⟩
  | openQuote => cases h; exact ⟨_, rfl⟩
  | empty => cases h
  | badSymbol => cases h

/-- An error names one line. -/
theorem Names.unique {e : GrammarError} {m n : Nat} (hm : e.Names m) (hn : e.Names n) : m = n := by
  obtain ⟨place, hplace, rfl, -⟩ := hm
  obtain ⟨place', hplace', rfl, -⟩ := hn
  rw [Option.some.inj (hplace.symm.trans hplace')]

end GrammarError

namespace Source

variable {line lhs rhs : Text}

/-- The line says nothing: it is blank, a comment, or has no arrow. -/
def Skipped (line : Text) : Prop :=
  line.trim = [] ∨ line.trim.head? = some '#'.toUInt8 ∨ ¬ [45, 62] <:+: line.trim

/-- The line is no comment, and these are its two sides around its first arrow. -/
def Divides (line lhs rhs : Text) : Prop :=
  line.trim.head? ≠ some '#'.toUInt8 ∧ ∃ left, line.trim = left ++ 45 :: 62 :: rhs ∧
    ¬ [45, 62] <:+: left ∧ lhs = left.trim

/-- The left side is not one symbol, or the right side ends inside a quoted segment. -/
def Faulty (line : Text) : Prop :=
  ∃ lhs rhs, Divides line lhs rhs ∧
    (lhs = [] ∨ (∃ b ∈ lhs, Text.isBlank b = true) ∨ EndsQuoted rhs)

/-- What a line without a fault contributes. -/
inductive Contributes (line : Text) : List Production → Prop
  | skipped (h : Skipped line) : Contributes line []
  | rule {lhs : Text} {parts : List Part} (h : Divides line lhs (bytes parts)) :
      Contributes line ((alternatives parts).map (⟨lhs, ·⟩))

theorem skipped_or_divides (line : Text) : Skipped line ∨ ∃ lhs rhs, Divides line lhs rhs := by
  by_cases hcomment : line.trim.head? = some '#'.toUInt8
  · exact Or.inl (Or.inr (Or.inl hcomment))
  cases hsplit : line.trim.splitArrow? with
  | none => exact Or.inl (Or.inr (Or.inr (Text.splitArrow?_eq_none.mp hsplit)))
  | some sides =>
      obtain ⟨heq, harrow⟩ := Text.splitArrow?_eq_some.mp hsplit
      exact Or.inr ⟨sides.1.trim, sides.2, hcomment, sides.1, heq, harrow, rfl⟩

theorem readLine_of_skipped (h : Skipped line) (number : UInt32) :
    readLine number line = .ok [] := by
  unfold readLine
  dsimp only
  by_cases hcomment : line.trim.head? = some '#'.toUInt8
  · rw [if_pos hcomment]
  · have harrow : ¬ [45, 62] <:+: line.trim := by
      rcases h with hblank | h | h
      · simp [hblank]
      · exact absurd h hcomment
      · exact h
    rw [if_neg hcomment, Text.splitArrow?_eq_none.mpr harrow]

/-- The checks of a line with an arrow, in their order. -/
theorem readLine_of_divides (h : Divides line lhs rhs) (number : UInt32) :
    readLine number line =
      if lhs = [] then .error (.missingLhs ⟨number, 0⟩)
      else if lhs.any Text.isBlank then .error (.compoundLhs lhs ⟨number, 0⟩)
      else
        match scanAlternatives none [] [] [] rhs with
        | .ok alternatives => .ok (alternatives.map (⟨lhs, ·⟩))
        | .error symbol =>
          .error (.openQuote symbol ⟨number, .ofNat (line.leadingBlanks + line.trim.length)⟩) := by
  obtain ⟨hcomment, left, heq, harrow, rfl⟩ := h
  have hsplit : line.trim.splitArrow? = some (left, rhs) :=
    Text.splitArrow?_eq_some.mpr ⟨heq, harrow⟩
  have hread : readLine number line = _ := if_neg hcomment
  rw [hsplit] at hread
  exact hread

/-- A faulty line is reported with its number. -/
theorem readLine_error (h : Faulty line) (number : UInt32) :
    ∃ e, readLine number line = .error e ∧ e.Names number.toNat := by
  obtain ⟨lhs, rhs, hdivides, hfault⟩ := h
  rw [readLine_of_divides hdivides]
  by_cases hlhs : lhs = []
  · rw [if_pos hlhs]
    exact ⟨_, rfl, GrammarError.names_of_place? rfl rfl⟩
  rw [if_neg hlhs]
  by_cases hblank : lhs.any Text.isBlank = true
  · rw [if_pos hblank]
    exact ⟨_, rfl, GrammarError.names_of_place? rfl rfl⟩
  rw [if_neg hblank]
  have hquoted : EndsQuoted rhs := by
    rcases hfault with h | ⟨b, hmem, hb⟩ | h
    · exact absurd h hlhs
    · exact absurd (List.any_eq_true.mpr ⟨b, hmem, hb⟩) hblank
    · exact h
  obtain ⟨symbol, hscan⟩ := hquoted.exists_error [] [] []
  rw [hscan]
  exact ⟨_, rfl, GrammarError.names_of_place? rfl rfl⟩

/-- The left side of a line without a fault is one symbol. -/
theorem Divides.isBlank_lhs (hdivides : Divides line lhs rhs) (h : ¬ Faulty line) :
    lhs ≠ [] ∧ ∀ b ∈ lhs, Text.isBlank b = false :=
  ⟨fun hlhs => h ⟨lhs, rhs, hdivides, Or.inl hlhs⟩, fun b hb =>
    Bool.eq_false_iff.mpr fun hblank => h ⟨lhs, rhs, hdivides, Or.inr (Or.inl ⟨b, hb, hblank⟩)⟩⟩

theorem exists_contributes (h : ¬ Faulty line) : ∃ rules, Contributes line rules := by
  rcases skipped_or_divides line with hskipped | ⟨lhs, rhs, hdivides⟩
  · exact ⟨[], .skipped hskipped⟩
  · rcases exists_parts rhs with ⟨parts, rfl⟩ | hquoted
    · exact ⟨_, .rule hdivides⟩
    · exact absurd ⟨lhs, rhs, hdivides, Or.inr (Or.inr hquoted)⟩ h

/-- A line without a fault is read as what it contributes. -/
theorem Contributes.readLine {rules : List Production} (hrules : Contributes line rules)
    (h : ¬ Faulty line) (number : UInt32) : readLine number line = .ok rules := by
  cases hrules with
  | skipped hskipped => exact readLine_of_skipped hskipped number
  | @rule lhs parts hdivides =>
      obtain ⟨hlhs, hblank⟩ := hdivides.isBlank_lhs h
      have hblank : ¬ lhs.any Text.isBlank = true := by simpa using hblank
      rw [readLine_of_divides hdivides, if_neg hlhs, if_neg hblank, scanAlternatives_parts]

/-! ### All lines -/

variable {lines : List Text} {read : List (List Production)}

theorem exists_forall_contributes (h : ∀ line ∈ lines, ¬ Faulty line) :
    ∃ read, List.Forall₂ Contributes lines read := by
  induction lines with
  | nil => exact ⟨[], .nil⟩
  | cons line lines ih =>
      obtain ⟨hline, hlines⟩ := List.forall_mem_cons.mp h
      obtain ⟨here, hhere⟩ := exists_contributes hline
      obtain ⟨rest, hrest⟩ := ih hlines
      exact ⟨here :: rest, .cons hhere hrest⟩

theorem readLines_ok (hread : List.Forall₂ Contributes lines read)
    (h : ∀ line ∈ lines, ¬ Faulty line) :
    ∀ number, readLines number lines = .ok read.flatten := by
  induction hread with
  | nil => exact fun _ => rfl
  | cons hhere _ ih =>
      intro number
      obtain ⟨hline, hlines⟩ := List.forall_mem_cons.mp h
      rw [readLines, hhere.readLine hline, ok_bind, ih hlines, ok_bind]
      rfl

/-- The first faulty line decides, and its number is counted from that of the first line. -/
theorem readLines_error {before : List Text} (after : List Text) (hline : Faulty line)
    (hbefore : ∀ l ∈ before, ¬ Faulty l) : ∀ (number : UInt32),
    number.toNat + before.length < UInt32.size →
    ∃ e, readLines number (before ++ line :: after) = .error e ∧
      e.Names (number.toNat + before.length) := by
  induction before with
  | nil =>
      intro number _
      obtain ⟨e, he, hnames⟩ := readLine_error hline number
      exact ⟨e, by rw [List.nil_append, readLines, he]; rfl, hnames⟩
  | cons l before ih =>
      intro number hlt
      obtain ⟨hl, hrest⟩ := List.forall_mem_cons.mp hbefore
      obtain ⟨here, hhere⟩ := exists_contributes hl
      rw [List.length_cons] at hlt ⊢
      have hnext : (number + 1).toNat = number.toNat + 1 := by
        rw [UInt32.toNat_add]
        exact Nat.mod_eq_of_lt (show number.toNat + 1 < UInt32.size by omega)
      obtain ⟨e, he, hnames⟩ := ih hrest (number + 1) (by omega)
      refine ⟨e, ?_, ?_⟩
      · rw [List.cons_append, readLines, hhere.readLine hl, ok_bind, he]
        rfl
      · rwa [hnext, Nat.add_assoc, Nat.add_comm 1] at hnames

theorem forall_or_exists_first {α : Type} (P : α → Prop) (xs : List α) :
    (∀ x ∈ xs, ¬ P x) ∨
      ∃ before x after, xs = before ++ x :: after ∧ P x ∧ ∀ y ∈ before, ¬ P y := by
  induction xs with
  | nil => exact Or.inl (by simp)
  | cons x xs ih =>
      by_cases hx : P x
      · exact Or.inr ⟨[], x, xs, rfl, hx, by simp⟩
      · rcases ih with hall | ⟨before, y, after, rfl, hy, hbefore⟩
        · exact Or.inl (List.forall_mem_cons.mpr ⟨hx, hall⟩)
        · exact Or.inr ⟨x :: before, y, after, rfl, hy, List.forall_mem_cons.mpr ⟨hx, hbefore⟩⟩

/-! ### Grouping -/

/-- The same productions by left-hand side: the productions of each keep their order, and the
left-hand sides come in the order of their first appearance. -/
structure Grouped (rules grouped : List Production) : Prop where
  filter_eq : ∀ lhs, grouped.filter (·.lhs == lhs) = rules.filter (·.lhs == lhs)
  ordered : grouped.Pairwise fun p q =>
    (rules.map (·.lhs)).idxOf p.lhs ≤ (rules.map (·.lhs)).idxOf q.lhs

/-- What is filtered out in between does not change which of two symbols comes first. -/
theorem idxOf_le_of_filter {q : Symbol → Bool} {s t : Symbol} (hs : q s = true) (ht : q t = true) :
    ∀ {symbols : List Symbol}, (symbols.filter q).idxOf s ≤ (symbols.filter q).idxOf t →
      symbols.idxOf s ≤ symbols.idxOf t := by
  intro symbols
  induction symbols with
  | nil => simp
  | cons u symbols ih =>
      intro h
      by_cases hu : q u = true
      · rw [List.filter_cons_of_pos hu, List.idxOf_cons, List.idxOf_cons] at h
        rw [List.idxOf_cons, List.idxOf_cons]
        grind
      · have hus : (u == s) = false := by grind
        have hut : (u == t) = false := by grind
        rw [List.filter_cons_of_neg hu] at h
        rw [List.idxOf_cons, List.idxOf_cons, hus, hut]
        exact Nat.succ_le_succ (ih h)

/-- The productions that are put together have one left-hand side. -/
theorem lhs_eq_of_mem_cons_filter {p q : Production} {rules : List Production}
    (h : q ∈ p :: rules.filter (·.lhs == p.lhs)) : q.lhs = p.lhs := by
  rcases List.mem_cons.mp h with rfl | h
  · rfl
  · simpa using (List.mem_filter.mp h).2

/-- The productions of a left-hand side stay in their order. -/
theorem filter_groupByLhs (lhs : Symbol) (rules : List Production) :
    (groupByLhs rules).filter (·.lhs == lhs) = rules.filter (·.lhs == lhs) := by
  match rules with
  | [] => rfl
  | p :: rules =>
      let same := rules.filter (·.lhs == p.lhs)
      let others := rules.filter (!·.lhs == p.lhs)
      have ih := filter_groupByLhs lhs others
      rw [groupByLhs_cons, List.filter_append]
      by_cases hlhs : p.lhs = lhs
      · subst hlhs
        have hfirst : (p :: same).filter (·.lhs == p.lhs) = p :: same :=
          List.filter_eq_self.mpr fun q hq => by simpa using lhs_eq_of_mem_cons_filter hq
        have hrest : (groupByLhs others).filter (·.lhs == p.lhs) = [] :=
          List.filter_eq_nil_iff.mpr fun q hq => by simpa using lhs_ne_of_mem_groupByLhs hq
        rw [hfirst, hrest, List.append_nil, List.filter_cons_of_pos (by simp)]
      · have hfirst : (p :: same).filter (·.lhs == lhs) = [] :=
          List.filter_eq_nil_iff.mpr fun q hq => by
            simpa [lhs_eq_of_mem_cons_filter hq] using hlhs
        rw [hfirst, ih, List.nil_append, List.filter_cons_of_neg (by simpa using hlhs),
          List.filter_filter]
        refine List.filter_congr fun q _ => ?_
        by_cases hq : q.lhs = lhs
        · simp [hq, Ne.symm hlhs]
        · simp [hq]
termination_by rules.length
decreasing_by
  exact Nat.lt_succ_of_le (List.length_filter_le _ _)

/-- The left-hand side of the first production is the first. -/
theorem idxOf_lhs_le {p q : Production} (hq : q.lhs = p.lhs) (rules : List Production)
    (lhs : Symbol) :
    ((p :: rules).map (·.lhs)).idxOf q.lhs ≤ ((p :: rules).map (·.lhs)).idxOf lhs := by
  rw [hq, List.map_cons, List.idxOf_cons_self]
  exact Nat.zero_le _

/-- Left-hand sides are grouped in the order of their first appearance. The induction takes the
productions of the first one away. -/
theorem pairwise_groupByLhs (rules : List Production) :
    (groupByLhs rules).Pairwise fun p q =>
      (rules.map (·.lhs)).idxOf p.lhs ≤ (rules.map (·.lhs)).idxOf q.lhs := by
  match rules with
  | [] => exact .nil
  | p :: rules =>
      let others := rules.filter (!·.lhs == p.lhs)
      have ih := pairwise_groupByLhs others
      have hmap : others.map (·.lhs) = ((p :: rules).map (·.lhs)).filter (!· == p.lhs) := by
        rw [List.map_cons, List.filter_cons_of_neg (by simp), List.filter_map]
        rfl
      rw [groupByLhs_cons]
      refine List.pairwise_append.mpr ⟨?_, ?_, fun q hq r _ => ?_⟩
      · exact List.pairwise_of_forall_mem_list fun q hq r _ =>
          idxOf_lhs_le (lhs_eq_of_mem_cons_filter hq) rules r.lhs
      · refine ih.imp_of_mem fun {q r} hq hr hle => ?_
        have hne := lhs_ne_of_mem_groupByLhs hq
        have hne' := lhs_ne_of_mem_groupByLhs hr
        rw [hmap] at hle
        exact idxOf_le_of_filter (by simpa using hne) (by simpa using hne') hle
      · exact idxOf_lhs_le (lhs_eq_of_mem_cons_filter hq) rules r.lhs
termination_by rules.length
decreasing_by
  exact Nat.lt_succ_of_le (List.length_filter_le _ _)

theorem grouped_groupByLhs (rules : List Production) : Grouped rules (groupByLhs rules) :=
  ⟨fun lhs => filter_groupByLhs lhs rules, pairwise_groupByLhs rules⟩

/-! ### The main result -/

theorem readRules_error {text : Text} (hlength : text.lines.length < UInt32.size)
    {before : List Text} {line : Text} {after : List Text}
    (hlines : text.lines = before ++ line :: after) (hline : Faulty line)
    (hbefore : ∀ l ∈ before, ¬ Faulty l) :
    ∃ e, readRules text = .error e ∧ e.Names (before.length + 1) := by
  have hlt : (1 : UInt32).toNat + before.length < UInt32.size := by
    rw [hlines, List.length_append, List.length_cons] at hlength
    rw [UInt32.toNat_one]
    omega
  obtain ⟨e, he, hnames⟩ := readLines_error after hline hbefore 1 hlt
  refine ⟨e, ?_, ?_⟩
  · rw [readRules, hlines, he]
    rfl
  · rwa [UInt32.toNat_one, Nat.add_comm] at hnames

theorem readRules_of_contributes {text : Text} (h : ∀ line ∈ text.lines, ¬ Faulty line)
    (hread : List.Forall₂ Contributes text.lines read) :
    readRules text =
      if read.flatten = [] then .error .empty else .ok (groupByLhs read.flatten) := by
  rw [readRules, readLines_ok hread h, ok_bind]
  split <;> rfl

/-- **A text is read by its lines.** The first faulty line is reported with its number. If no line
is faulty, all of them contribute, and their productions are grouped; if there are none, the grammar
is empty. -/
theorem readRules_lines {text : Text} (hlength : text.lines.length < UInt32.size) :
    Text.Divided text text.lines ∧
      (∀ number, (∃ e, readRules text = .error e ∧ e.Names number) ↔
        ∃ before line after, text.lines = before ++ line :: after ∧
          number = before.length + 1 ∧ Faulty line ∧ ∀ l ∈ before, ¬ Faulty l) ∧
      ((∀ line ∈ text.lines, ¬ Faulty line) →
        (∃ read, List.Forall₂ Contributes text.lines read) ∧
        ∀ read, List.Forall₂ Contributes text.lines read →
          (read.flatten = [] → readRules text = .error .empty) ∧
          (read.flatten ≠ [] →
            ∃ rules, readRules text = .ok rules ∧ Grouped read.flatten rules)) := by
  refine ⟨text.divided_lines, fun number => ⟨fun ⟨e, he, hnames⟩ => ?_, ?_⟩, fun hlines => ?_⟩
  · rcases forall_or_exists_first Faulty text.lines with
      hlines | ⟨before, line, after, hlines, hline, hbefore⟩
    · -- without a faulty line there is no error that names one
      exfalso
      obtain ⟨read, hread⟩ := exists_forall_contributes hlines
      rw [readRules_of_contributes hlines hread] at he
      split at he
      · obtain rfl := Except.error.inj he
        obtain ⟨place, hplace, -⟩ := hnames
        cases hplace
      · cases he
    · obtain ⟨e', he', hnames'⟩ := readRules_error hlength hlines hline hbefore
      obtain rfl := Except.error.inj (he.symm.trans he')
      exact ⟨before, line, after, hlines, hnames.unique hnames', hline, hbefore⟩
  · intro ⟨before, line, after, hlines, hnumber, hline, hbefore⟩
    rw [hnumber]
    exact readRules_error hlength hlines hline hbefore
  · refine ⟨exists_forall_contributes hlines, fun read hread => ?_⟩
    rw [readRules_of_contributes hlines hread]
    constructor
    · intro hnil
      rw [if_pos hnil]
    · intro hne
      rw [if_neg hne]
      exact ⟨_, rfl, grouped_groupByLhs _⟩

/-- A line whose second quote stays open. -/
def openLine : Text :=
  "S -> '|' | \"b"

theorem faulty_openLine : Faulty openLine := by
  have hrhs : EndsQuoted " '|' | \"b" :=
    ⟨[.byte 32 rfl, .quoted 39 "|" rfl (by decide +kernel), .byte 32 rfl, .byte 124 rfl,
      .byte 32 rfl], 34, "b", rfl, by decide +kernel, by decide +kernel⟩
  have hdivides : Divides openLine "S" " '|' | \"b" :=
    ⟨by decide +kernel, "S ", by decide +kernel, by decide +kernel, by decide +kernel⟩
  exact ⟨_, _, hdivides, Or.inr (Or.inr hrhs)⟩

/-- The open line after a comment, and before a line with two symbols on its left side. -/
def openText : Text :=
  Text.line "# c" ++ Text.line openLine ++ "T U -> c"

theorem readRules_lines_open :
    openText.lines.length < UInt32.size ∧ ∃ e, readRules openText = .error e ∧ e.Names 2 := by
  have hlength : openText.lines.length < UInt32.size := by decide +kernel
  have hlines : openText.lines = [Text.ofString "# c"] ++ openLine :: [Text.ofString "T U -> c"] :=
    by decide +kernel
  have hcomment : ¬ Faulty "# c" := by
    intro ⟨_, _, ⟨hhead, _⟩, _⟩
    exact hhead (by decide +kernel)
  refine ⟨hlength, ((readRules_lines hlength).2.1 2).mpr ?_⟩
  exact ⟨_, openLine, _, hlines, rfl, faulty_openLine, List.forall_mem_singleton.mpr hcomment⟩

end Source

end ShiftReduce
