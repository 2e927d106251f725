import ShiftReduce.Proofs.Grammar.Format

/-!
# ShiftReduce.Proofs.Grammar.Printing

**Printing the productions of a grammar text and reading them again gives them back.**

The printer and the reader meet in what a reader can emit:

* a symbol of a right-hand side is a *word* (`Source.IsWord`): read byte by byte it holds no divider
  outside of its quotes, and all its quotes are closed;
* a production is *printable* (`Production.Printable`): its left-hand side has no blank and no arrow
  and does not look like a comment, and its right-hand side is words that do not mark an empty one.

Every production that a line contributes is printable (`Source.Contributes.printable`), and the line
that a printable production is printed on has that production and no other
(`Production.Printable.readLine_toText`). Productions that are grouped by their left-hand sides stay
where they are when they are grouped again (`Source.groupByLhs_groupByLhs`).
-/

namespace ShiftReduce

namespace Source

/-! ### Words -/

/-- The symbols of right-hand sides: nothing divides them, and their quotes are closed. -/
structure IsWord (w : Text) : Prop where
  ne_nil : w ≠ []
  /-- No quote is open at the end. -/
  closed : w.foldlM advance none = some none
  newline_notMem : '\n'.toUInt8 ∉ w

theorem isWord_emptyMark : IsWord Symbol.emptyMark :=
  ⟨by decide, by decide, by decide⟩

/-- Only quotes are opened. -/
theorem isQuote_of_foldlM {w : Text} : ∀ {quote : Option UInt8}, (∀ q ∈ quote, isQuote q = true) →
    ∀ {next : Option UInt8}, w.foldlM advance quote = some next → ∀ q ∈ next, isQuote q = true := by
  induction w with
  | nil =>
      intro quote hquote next h
      cases h
      exact hquote
  | cons b w ih =>
      intro quote hquote next h
      obtain ⟨quote', hb, hw⟩ := Option.bind_eq_some_iff.mp h
      refine ih (fun q hq => ?_) hw
      obtain ⟨q', rfl, rfl⟩ | ⟨rfl, -, -, rfl⟩ := advance_eq_some.mp hb
      · split at hq
        · cases hq
        · exact hquote q hq
      · split at hq
        · cases hq
          assumption
        · cases hq

/-- A word does not start with a blank. -/
theorem IsWord.head? {w : Text} (h : IsWord w) : ∀ b ∈ w.head?, Text.isBlank b = false := by
  intro b hb
  obtain ⟨u, rfl⟩ := List.head?_eq_some_iff.mp hb
  obtain ⟨quote, hfirst, -⟩ := Option.bind_eq_some_iff.mp h.closed
  obtain ⟨q, hq, -⟩ | ⟨-, -, hblank, -⟩ := advance_eq_some.mp hfirst
  · cases hq
  · exact hblank

/-- A word does not end with a blank. -/
theorem IsWord.getLast? {w : Text} (h : IsWord w) : ∀ b ∈ w.getLast?, Text.isBlank b = false := by
  intro b hb
  obtain ⟨u, rfl⟩ := List.getLast?_eq_some_iff.mp hb
  have hclosed := h.closed
  rw [foldlM_advance_concat] at hclosed
  obtain ⟨quote, hu, hlast⟩ := Option.bind_eq_some_iff.mp hclosed
  obtain ⟨q, rfl, hq⟩ | ⟨-, -, hblank, -⟩ := advance_eq_some.mp hlast
  · -- the last byte closes the quote
    split at hq
    · rename_i hbq
      exact isBlank_of_isQuote (isQuote_of_foldlM (by simp) hu b (by rw [hbq]; rfl))
    · cases hq
  · exact hblank

/-! ### What is read -/

/-- The pieces of a split hold parts of the whole, and none that it is split at. -/
theorem mem_of_mem_splitOnP {p : Part → Bool} {parts : List Part} :
    ∀ piece ∈ parts.splitOnP p, ∀ part ∈ piece, part ∈ parts ∧ p part = false := by
  induction parts with
  | nil => simp [List.splitOnP_nil]
  | cons first parts ih =>
      obtain ⟨next, pieces, hparts⟩ :=
        List.exists_cons_of_ne_nil (List.splitOnP_ne_nil p parts)
      have hcons : ∀ {piece part}, piece ∈ next :: pieces → part ∈ piece →
          part ∈ first :: parts ∧ p part = false := fun hpiece hpart =>
        (ih _ (hparts ▸ hpiece) _ hpart).imp_left (List.mem_cons_of_mem first)
      rw [List.splitOnP_cons_eq_if_modifyHead, hparts]
      intro piece hpiece part hpart
      cases hfirst : p first with
      | true =>
          rw [hfirst, if_pos rfl] at hpiece
          rcases List.mem_cons.mp hpiece with rfl | hpiece
          · cases hpart
          · exact hcons hpiece hpart
      | false =>
          rw [hfirst, if_neg Bool.false_ne_true, List.modifyHead_cons] at hpiece
          rcases List.mem_cons.mp hpiece with rfl | hpiece
          · rcases List.mem_cons.mp hpart with rfl | hpart
            · exact ⟨List.mem_cons_self, hfirst⟩
            · exact hcons List.mem_cons_self hpart
          · exact hcons (List.mem_cons_of_mem next hpiece) hpart

theorem foldlM_advance_bytes {run : List Part} (hbar : ∀ part ∈ run, part.isBar = false)
    (hblank : ∀ part ∈ run, part.isBlank = false) :
    (bytes run).foldlM advance none = some none := by
  induction run with
  | nil => rfl
  | cons part run ih =>
      obtain ⟨hpart, hrun⟩ := List.forall_mem_cons.mp hbar
      obtain ⟨hpart', hrun'⟩ := List.forall_mem_cons.mp hblank
      rw [bytes_cons, List.foldlM_append, foldlM_advance_text hpart hpart']
      exact ih hrun hrun'

/-- The symbols of a piece are words. -/
theorem isWord_of_mem_words {piece : List Part} (hbar : ∀ part ∈ piece, part.isBar = false)
    (hnewline : '\n'.toUInt8 ∉ bytes piece) : ∀ w ∈ words piece, IsWord w := by
  intro w hw
  obtain ⟨run, hrun, rfl⟩ := List.mem_map.mp hw
  obtain ⟨hrun, hne⟩ := List.mem_filter.mp hrun
  have hparts := mem_of_mem_splitOnP run hrun
  refine ⟨fun hnil => ?_, foldlM_advance_bytes (fun part hpart => hbar part (hparts part hpart).1)
    fun part hpart => (hparts part hpart).2, fun hmem => hnewline ?_⟩
  · rw [bytes_eq_nil hnil] at hne
    cases hne
  · obtain ⟨part, hpart, hb⟩ := List.mem_flatMap.mp hmem
    exact List.mem_flatMap.mpr ⟨part, (hparts part hpart).1, hb⟩

/-- A right-hand side: words that do not mark an empty one. -/
structure IsAlternative (symbols : List Symbol) : Prop where
  words : ∀ s ∈ symbols, IsWord s
  rightHandSide_eq : rightHandSide symbols = symbols

theorem isAlternative_rightHandSide {symbols : List Symbol} (h : ∀ s ∈ symbols, IsWord s) :
    IsAlternative (rightHandSide symbols) := by
  unfold rightHandSide
  split
  · exact ⟨by simp, by simp [rightHandSide]⟩
  · rename_i hne
    exact ⟨h, if_neg hne⟩

/-- Each piece of a right-hand side is one. -/
theorem isAlternative_of_mem_alternatives {parts : List Part}
    (hnewline : '\n'.toUInt8 ∉ bytes parts) : ∀ rhs ∈ alternatives parts, IsAlternative rhs := by
  intro rhs hrhs
  obtain ⟨piece, hpiece, rfl⟩ := List.mem_map.mp hrhs
  have hparts := mem_of_mem_splitOnP piece hpiece
  refine isAlternative_rightHandSide (isWord_of_mem_words (fun part hpart => (hparts part hpart).2)
    fun hmem => hnewline ?_)
  obtain ⟨part, hpart, hb⟩ := List.mem_flatMap.mp hmem
  exact List.mem_flatMap.mpr ⟨part, (hparts part hpart).1, hb⟩

end Source

/-- A production that can be read from the line that it is printed on. -/
structure Production.Printable (p : Production) : Prop where
  lhs_ne_nil : p.lhs ≠ []
  isBlank_lhs : ∀ b ∈ p.lhs, Text.isBlank b = false
  /-- The line is no comment. -/
  head?_lhs : p.lhs.head? ≠ some '#'.toUInt8
  /-- The arrow after the left-hand side is the first. -/
  arrow_lhs : ¬ [45, 62] <:+: p.lhs
  isAlternative_rhs : Source.IsAlternative p.rhs

namespace Source

/-- The productions of a line are printable. -/
theorem Contributes.printable {line : Text} {rules : List Production}
    (hrules : Contributes line rules) (h : ¬ Faulty line) (hnewline : '\n'.toUInt8 ∉ line) :
    ∀ p ∈ rules, p.Printable := by
  cases hrules with
  | skipped => simp
  | @rule lhs parts hdivides =>
      obtain ⟨hlhs, hblank⟩ := hdivides.isBlank_lhs h
      obtain ⟨hcomment, left, heq, harrow, rfl⟩ := hdivides
      have hleft : ∀ b ∈ left.head?, Text.isBlank b = false := by
        intro b hb
        refine Text.head?_trim (t := line) b ?_
        rw [heq, List.head?_append, hb]
        rfl
      obtain ⟨rest, hrest⟩ := Text.trim_isPrefix hleft
      have hright : '\n'.toUInt8 ∉ bytes parts := by
        intro hmem
        refine hnewline (line.trim_subset ?_)
        rw [heq]
        simp [hmem]
      intro p hp
      obtain ⟨rhs, hrhs, rfl⟩ := List.mem_map.mp hp
      refine ⟨hlhs, hblank, fun hhead => hcomment ?_, fun hinfix => harrow ?_, ?_⟩
      · -- the left-hand side starts like the line
        rw [heq, ← hrest, List.append_assoc, List.head?_append, hhead]
        rfl
      · exact hinfix.trans (Text.trim_isPrefix hleft).isInfix
      · exact isAlternative_of_mem_alternatives hright rhs hrhs

theorem readLine_printable {number : UInt32} {line : Text} {rules : List Production}
    (h : readLine number line = .ok rules) (hnewline : '\n'.toUInt8 ∉ line) :
    ∀ p ∈ rules, p.Printable := by
  have hfault : ¬ Faulty line := by
    intro hfault
    obtain ⟨e, he, -⟩ := readLine_error hfault number
    cases h.symm.trans he
  obtain ⟨rules', hrules⟩ := exists_contributes hfault
  cases h.symm.trans (hrules.readLine hfault number)
  exact hrules.printable hfault hnewline

theorem readLines_printable {lines : List Text} (hnewline : ∀ l ∈ lines, '\n'.toUInt8 ∉ l) :
    ∀ {number : UInt32} {rules : List Production}, readLines number lines = .ok rules →
      ∀ p ∈ rules, p.Printable := by
  induction lines with
  | nil =>
      intro number rules h
      cases h
      simp
  | cons line lines ih =>
      intro number rules h
      obtain ⟨hline, hlines⟩ := List.forall_mem_cons.mp hnewline
      obtain ⟨here, hhere, h⟩ := bind_eq_ok.mp h
      obtain ⟨rest, hrest, h⟩ := bind_eq_ok.mp h
      cases h
      intro p hp
      rcases List.mem_append.mp hp with hp | hp
      · exact readLine_printable hhere hline p hp
      · exact ih hlines hrest p hp

/-! ### What is printed -/

/-- Words with a blank between them are read back. -/
theorem scanAlternatives_join {words : List Symbol} (h : ∀ w ∈ words, IsWord w) :
    ∀ (symbols : List Symbol) (raw : Text),
      scanAlternatives none [] symbols raw (Text.join " " words) =
        .ok [alternative (raw ++ Text.join " " words) (symbols ++ words)] := by
  induction words with
  | nil =>
      intro symbols raw
      rw [Text.join, List.intercalate_nil, List.append_nil]
      rfl
  | cons w words ih =>
      intro symbols raw
      obtain ⟨hw, hwords⟩ := List.forall_mem_cons.mp h
      have hword : word w = [w] := if_neg hw.ne_nil
      cases words with
      | nil =>
          have hscan := scanAlternatives_append symbols [] [] raw hw.closed
          rw [List.append_nil, List.nil_append] at hscan
          rw [Text.join, List.intercalate_singleton, hscan, scanAlternatives, hword]
      | cons w' words =>
          have hblank : scanAlternatives none w symbols (raw ++ w)
              ((" " : Text) ++ Text.join " " (w' :: words)) =
              scanAlternatives none [] (symbols ++ word w) (raw ++ w ++ " ")
                (Text.join " " (w' :: words)) := rfl
          have hjoin : Text.join " " (w :: w' :: words) =
              w ++ ((" " : Text) ++ Text.join " " (w' :: words)) := by
            rw [Text.join, List.intercalate_cons_cons, List.append_assoc, ← Text.join]
          rw [hjoin, scanAlternatives_append _ _ [] raw hw.closed, List.nil_append, hblank,
            ih hwords, hword]
          simp only [List.append_assoc, List.singleton_append]

/-- Joined by blanks, words are a text without blanks only if there is just one. -/
theorem join_eq_iff {words : List Symbol} (hne : words ≠ []) {t : Text} (ht : 32 ∉ t) :
    Text.join " " words = t ↔ words = [t] := by
  match words with
  | [] => exact absurd rfl hne
  | [w] => simp [Text.join]
  | w :: w' :: words =>
      constructor
      · intro heq
        rw [Text.join, List.intercalate_cons_cons] at heq
        refine absurd ?_ ht
        rw [← heq, List.append_assoc]
        exact List.mem_append_right _ (List.mem_append_left _ (by decide))
      · intro heq
        cases heq

/-- Joined words do not end with a blank. -/
theorem getLast?_join {words : List Symbol} (h : ∀ w ∈ words, IsWord w) :
    ∀ b ∈ (Text.join " " words).getLast?, Text.isBlank b = false := by
  by_cases hne : words = []
  · subst hne
    simp [Text.join]
  · obtain ⟨front, last, hlast, hjoin⟩ := Text.exists_join_eq " " hne
    rw [hjoin, List.getLast?_append_of_ne_nil _ (h last hlast).ne_nil]
    exact (h last hlast).getLast?

/-- What is read from words that are printed after a blank. -/
theorem alternative_join {words : List Symbol} (hne : words ≠ []) (h : ∀ w ∈ words, IsWord w) :
    alternative (32 :: Text.join " " words) words = rightHandSide words := by
  obtain ⟨w, rest, rfl⟩ := List.exists_cons_of_ne_nil hne
  have hw : IsWord w := h w (by simp)
  have htrim : Text.trim (32 :: Text.join " " (w :: rest)) = Text.join " " (w :: rest) := by
    rw [Text.trim_cons_blank rfl]
    refine Text.trim_eq_self (fun b hb => ?_) (getLast?_join h)
    obtain ⟨back, hjoin⟩ := Text.exists_join_cons_eq " " w rest
    rw [hjoin, List.head?_append_of_ne_nil _ hw.ne_nil] at hb
    exact hw.head? b hb
  rw [alternative, rightHandSide, htrim]
  refine if_congr ?_ rfl rfl
  rw [join_eq_iff hne (by decide), join_eq_iff hne (by decide +kernel),
    join_eq_iff hne (by decide +kernel)]
  refine or_iff_right fun hempty => ?_
  cases hempty
  exact hw.ne_nil rfl

end Source

namespace Production.Printable

variable {p : Production}

/-- The words that are printed after the arrow, and stand for the right-hand side. -/
theorem exists_words (h : p.Printable) :
    ∃ words, words ≠ [] ∧ (∀ w ∈ words, Source.IsWord w) ∧ Source.rightHandSide words = p.rhs ∧
      p.toText = p.lhs ++ [32, 45, 62, 32] ++ Text.join " " words := by
  by_cases hrhs : p.rhs = []
  · refine ⟨[Symbol.emptyMark], List.cons_ne_nil _ _, ?_, ?_, ?_⟩
    · exact List.forall_mem_singleton.mpr Source.isWord_emptyMark
    · rw [hrhs, Source.rightHandSide, if_pos (Or.inl rfl)]
    · rw [toText, if_pos hrhs]
      rfl
  · refine ⟨p.rhs, hrhs, h.isAlternative_rhs.words, h.isAlternative_rhs.rightHandSide_eq, ?_⟩
    rw [toText, if_neg hrhs]
    rfl

theorem newline_notMem (h : p.Printable) : '\n'.toUInt8 ∉ p.toText := by
  obtain ⟨words, -, hwords, -, htext⟩ := h.exists_words
  rw [htext]
  intro hmem
  rcases List.mem_append.mp hmem with hmem | hmem
  · rcases List.mem_append.mp hmem with hmem | hmem
    · exact absurd (h.isBlank_lhs _ hmem) (by decide)
    · exact absurd hmem (by decide)
  · rcases Text.mem_join hmem with hmem | ⟨w, hw, hmem⟩
    · exact absurd hmem (by decide)
    · exact (hwords w hw).newline_notMem hmem

theorem head?_toText (h : p.Printable) : p.toText.head? = p.lhs.head? := by
  obtain ⟨words, -, -, -, htext⟩ := h.exists_words
  rw [htext, List.append_assoc, List.head?_append_of_ne_nil _ h.lhs_ne_nil]

/-- The line neither starts nor ends with a blank. -/
theorem trim_toText (h : p.Printable) : p.toText.trim = p.toText := by
  obtain ⟨words, hne, hwords, -, htext⟩ := h.exists_words
  have hjoin : Text.join " " words ≠ [] := by
    obtain ⟨front, w, hw, hjoin⟩ := Text.exists_join_eq " " hne
    rw [hjoin]
    exact List.append_ne_nil_of_right_ne_nil _ (hwords w hw).ne_nil
  refine Text.trim_eq_self (fun b hb => ?_) fun b hb => ?_
  · rw [h.head?_toText] at hb
    exact h.isBlank_lhs b (List.mem_of_mem_head? hb)
  · rw [htext, List.getLast?_append_of_ne_nil _ hjoin] at hb
    exact Source.getLast?_join hwords b hb

/-- The line of a printable production is read as the production. -/
theorem readLine_toText (h : p.Printable) (number : UInt32) :
    Source.readLine number p.toText = .ok [p] := by
  obtain ⟨words, hne, hwords, hrhs, htext⟩ := h.exists_words
  have hcomment : ¬ p.toText.head? = some '#'.toUInt8 := by
    rw [h.head?_toText]
    exact h.head?_lhs
  have harrow : p.toText.splitArrow? = some (p.lhs ++ [32], 32 :: Text.join " " words) := by
    refine Text.splitArrow?_eq_some.mpr ⟨by simpa using htext, fun hinfix => ?_⟩
    rcases List.infix_concat_iff.mp hinfix with ⟨front, hfront⟩ | hinfix
    · -- an arrow does not end with a blank
      have hlast := congrArg List.getLast? hfront
      simp at hlast
    · exact h.arrow_lhs hinfix
  have hlhs : Text.trim (p.lhs ++ [32]) = p.lhs := Text.trim_append_blank h.isBlank_lhs rfl
  have hblank : ¬ p.lhs.any Text.isBlank = true := by simpa using h.isBlank_lhs
  have hscan : Source.scanAlternatives none [] [] [] (32 :: Text.join " " words) =
      .ok [p.rhs] := by
    rw [← hrhs, ← Source.alternative_join hne hwords]
    exact Source.scanAlternatives_join hwords [] [32]
  unfold Source.readLine
  simp only [h.trim_toText, if_neg hcomment, harrow, hlhs, if_neg h.lhs_ne_nil, if_neg hblank,
    hscan]
  rfl

end Production.Printable

namespace Source

/-! ### The result -/

/-- Productions that are grouped stay where they are. The induction takes the productions of one
left-hand side away at a time. -/
theorem groupByLhs_groupByLhs (rules : List Production) :
    groupByLhs (groupByLhs rules) = groupByLhs rules := by
  match rules with
  | [] => rfl
  | p :: rules =>
      let same := rules.filter (·.lhs == p.lhs)
      let others := rules.filter (!·.lhs == p.lhs)
      have ih := groupByLhs_groupByLhs others
      have hothers : ∀ q ∈ groupByLhs others, (q.lhs == p.lhs) = false :=
        fun q hq => beq_false_of_ne (lhs_ne_of_mem_groupByLhs hq)
      have hsame : ∀ q ∈ same, (q.lhs == p.lhs) = true := fun q hq => (List.mem_filter.mp hq).2
      have hfirst : (same ++ groupByLhs others).filter (·.lhs == p.lhs) = same := by
        rw [List.filter_append, List.filter_eq_self.mpr hsame,
          List.filter_eq_nil_iff.mpr (by simpa using hothers), List.append_nil]
      have hrest : (same ++ groupByLhs others).filter (!·.lhs == p.lhs) = groupByLhs others := by
        rw [List.filter_append, List.filter_eq_nil_iff.mpr (by simpa using hsame),
          List.filter_eq_self.mpr (by simpa using hothers), List.nil_append]
      rw [groupByLhs_cons p rules, List.cons_append, groupByLhs_cons, hfirst, hrest, ih,
        List.cons_append]
termination_by rules.length
decreasing_by
  exact Nat.lt_succ_of_le (List.length_filter_le _ _)

/-- The productions as they are printed, each on a line of its own. -/
def rulesText (rules : List Production) : Text :=
  rules.flatMap fun p => Text.line p.toText

theorem readLines_toText {rules : List Production} (h : ∀ p ∈ rules, p.Printable) :
    ∀ number : UInt32, readLines number (rules.map (·.toText)) = .ok rules := by
  induction rules with
  | nil => exact fun _ => rfl
  | cons p rules ih =>
      intro number
      obtain ⟨hp, hrules⟩ := List.forall_mem_cons.mp h
      rw [List.map_cons, readLines, hp.readLine_toText, ok_bind, ih hrules, ok_bind]
      rfl

theorem readRules_eq_ok {text : Text} {rules : List Production} :
    readRules text = .ok rules ↔ ∃ read, readLines 1 text.lines = .ok read ∧ read ≠ [] ∧
      rules = groupByLhs read := by
  unfold readRules
  rw [bind_eq_ok]
  refine exists_congr fun read => and_congr_right fun _ => ?_
  by_cases hread : read = []
  · simp [hread]
  · simp [hread, pure, Except.pure, eq_comm]

/-- The productions that were read from a text are read again from the text that they are printed
as: the same productions in the same order. -/
theorem readRules_rulesText {text : Text} {rules : List Production}
    (h : readRules text = .ok rules) : readRules (rulesText rules) = .ok rules := by
  obtain ⟨read, hread, hne, rfl⟩ := readRules_eq_ok.mp h
  have hprintable : ∀ p ∈ groupByLhs read, p.Printable := fun p hp =>
    readLines_printable (fun l hl => Text.newline_notMem_of_mem_lines l hl) hread p
      (mem_groupByLhs.mp hp)
  refine readRules_eq_ok.mpr ⟨groupByLhs read, ?_, ?_, (groupByLhs_groupByLhs read).symm⟩
  · rw [rulesText, Text.lines_flatMap_line fun p hp => (hprintable p hp).newline_notMem]
    exact readLines_toText hprintable 1
  · obtain ⟨p, hp⟩ := List.exists_mem_of_ne_nil read hne
    exact List.ne_nil_of_mem (mem_groupByLhs.mpr hp)

/-- Dividers and an arrow in quotes, a hyphen before an arrow, the text of an empty right-hand side
next to a symbol, and a left-hand side on two lines. -/
def quotedText : Text :=
  "a- -> '| ' b | epsilon x\n# c\nB->\"->\" |\na- -> ε\n"

def quotedRules : List Production :=
  [⟨"a-", ["'| '", "b"]⟩, ⟨"a-", ["epsilon", "x"]⟩, ⟨"a-", []⟩, ⟨"B", ["\"->\""]⟩, ⟨"B", []⟩]

theorem readRules_rulesText_quoted :
    readRules quotedText = .ok quotedRules ∧
      readRules (rulesText quotedRules) = .ok quotedRules := by
  have hread : readRules quotedText = .ok quotedRules := by decide +kernel
  exact ⟨hread, readRules_rulesText hread⟩

end Source

end ShiftReduce
