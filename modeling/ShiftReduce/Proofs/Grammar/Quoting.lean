import Mathlib.Data.List.DropRight
import ShiftReduce.Proofs.Grammar.Source

/-!
# ShiftReduce.Proofs.Grammar.Quoting

**A right-hand side is divided outside of its quotes.** Its parts are quoted segments and the bytes
between them (`Source.Part`). A bar divides it into pieces and a blank divides a piece into symbols,
but only as a part of its own: nothing divides a segment.

`Source.alternatives` is this rule, by the splits of lists. A piece is the empty right-hand side if
it has no symbols, or just a mark for it (`Source.rightHandSide`). The scan asks the bytes of the
piece, and they give the same answer (`Source.alternative_bytes`): one symbol is all that is left of
them without the blanks at the ends.

A right-hand side has parts, or it ends inside a quoted segment (`Source.EndsQuoted`). In the first
case the scan finds the alternatives of its parts (`Source.scanAlternatives_parts`), in the second
case it fails (`Source.EndsQuoted.exists_error`).
-/

namespace ShiftReduce.Source

/-! ### Parts -/

/-- A part of a right-hand side. -/
inductive Part where
  /-- A byte outside of quotes, which opens none. -/
  | byte (b : UInt8) (hb : isQuote b = false)
  /-- A quoted segment, which ends at the first quote like the one that opens it. -/
  | quoted (quote : UInt8) (body : Text) (hquote : isQuote quote = true) (hbody : quote ∉ body)

namespace Part

def text : Part → Text
  | .byte b _ => [b]
  | .quoted quote body _ _ => quote :: (body ++ [quote])

/-- Whether the part divides alternatives. -/
def isBar : Part → Bool
  | .byte b _ => b == '|'.toUInt8
  | .quoted .. => false

/-- Whether the part divides symbols. -/
def isBlank : Part → Bool
  | .byte b _ => Text.isBlank b
  | .quoted .. => false

theorem text_ne_nil (part : Part) : part.text ≠ [] := by
  cases part with
  | byte b hb => exact List.cons_ne_nil _ _
  | quoted quote body hquote hbody => exact List.cons_ne_nil _ _

end Part

/-- The bytes of some parts. -/
def bytes (parts : List Part) : Text :=
  parts.flatMap Part.text

/-- The symbols of a piece: its longest runs of parts that are not blank. -/
def words (piece : List Part) : List Symbol :=
  ((piece.splitOnP Part.isBlank).filter fun run => !run.isEmpty).map bytes

/-- The right-hand side that the symbols of a piece stand for. `ε` and `epsilon` mark an empty
one. -/
def rightHandSide (symbols : List Symbol) : List Symbol :=
  if symbols = [Symbol.emptyMark] ∨ symbols = [("epsilon" : Text)] then [] else symbols

/-- The alternatives of a right-hand side: one for each of the pieces between its bars. -/
def alternatives (parts : List Part) : List (List Symbol) :=
  (parts.splitOnP Part.isBar).map fun piece => rightHandSide (words piece)

/-- The text ends inside a quoted segment. -/
def EndsQuoted (rhs : Text) : Prop :=
  ∃ (parts : List Part) (quote : UInt8) (body : Text), isQuote quote = true ∧ quote ∉ body ∧
    rhs = bytes parts ++ quote :: body

theorem bytes_cons (part : Part) (parts : List Part) :
    bytes (part :: parts) = part.text ++ bytes parts :=
  List.flatMap_cons

theorem bytes_concat (parts : List Part) (part : Part) :
    bytes (parts ++ [part]) = bytes parts ++ part.text := by
  rw [bytes, List.flatMap_append, List.flatMap_singleton]
  rfl

theorem bytes_eq_nil {parts : List Part} (h : bytes parts = []) : parts = [] := by
  cases parts with
  | nil => rfl
  | cons part parts =>
      rw [bytes_cons] at h
      exact absurd (List.append_eq_nil_iff.mp h).1 part.text_ne_nil

/-- A right-hand side has parts, or a quote that opens and does not close. The parts are taken off
from the front: after a quote, up to the next one like it. -/
theorem exists_parts (rhs : Text) : (∃ parts, rhs = bytes parts) ∨ EndsQuoted rhs := by
  match rhs with
  | [] => exact Or.inl ⟨[], rfl⟩
  | b :: rest =>
      have hcons : ∀ (part : Part) (tail : Text), b :: rest = part.text ++ tail →
          ((∃ parts, tail = bytes parts) ∨ EndsQuoted tail) →
          (∃ parts, b :: rest = bytes parts) ∨ EndsQuoted (b :: rest) := by
        intro part tail heq htail
        rw [heq]
        rcases htail with ⟨parts, rfl⟩ | ⟨parts, quote, body, hquote, hbody, rfl⟩
        · exact Or.inl ⟨part :: parts, (bytes_cons part parts).symm⟩
        · refine Or.inr ⟨part :: parts, quote, body, hquote, hbody, ?_⟩
          rw [bytes_cons, List.append_assoc]
      by_cases hb : isQuote b = true
      · by_cases hclosed : b ∈ rest
        · obtain ⟨body, tail, rfl, hbody⟩ := List.eq_append_cons_of_mem hclosed
          have hlt : tail.length < (body ++ b :: tail).length + 1 := by
            rw [List.length_append, List.length_cons]
            omega
          exact hcons (.quoted b body hb hbody) tail (by simp [Part.text]) (exists_parts tail)
        · exact Or.inr ⟨[], b, rest, hb, hclosed, rfl⟩
      · exact hcons (.byte b (by simpa using hb)) rest rfl (exists_parts rest)
termination_by rhs.length

/-! ### Splits of parts -/

/-- Parts that are not blank are one symbol. -/
theorem words_run {run : List Part} (h : ∀ part ∈ run, part.isBlank = false) :
    words run = word (bytes run) := by
  rw [words, List.splitOnP_eq_singleton h, word]
  by_cases hrun : run = []
  · subst hrun
    rfl
  · rw [if_neg (mt bytes_eq_nil hrun), List.filter_cons_of_pos (by simpa using hrun)]
    rfl

/-- A blank ends a symbol. -/
theorem words_append_blank {blank : Part} (h : blank.isBlank = true) (before after : List Part) :
    words (before ++ blank :: after) = words before ++ words after := by
  rw [words, List.splitOnP_append_cons _ _ h, List.filter_append, List.map_append]
  rfl

/-! ### Empty right-hand sides -/

/-- A piece without the blanks at its two ends. -/
def core (piece : List Part) : List Part :=
  (piece.dropWhile Part.isBlank).rdropWhile Part.isBlank

theorem head?_core (piece : List Part) : ∀ part ∈ (core piece).head?, part.isBlank = false := by
  intro part hpart
  obtain ⟨back, hback⟩ := List.rdropWhile_prefix Part.isBlank (l := piece.dropWhile Part.isBlank)
  rw [← core] at hback
  have hhead : (piece.dropWhile Part.isBlank).head? = some part := by
    rw [← hback, List.head?_append, hpart]
    rfl
  have hnot := List.head?_dropWhile_not Part.isBlank piece
  rwa [hhead] at hnot

theorem getLast?_core (piece : List Part) :
    ∀ part ∈ (core piece).getLast?, part.isBlank = false := by
  intro part hpart
  have hne : core piece ≠ [] := List.ne_nil_of_mem (List.mem_of_getLast? hpart)
  have hnot : ¬ ((core piece).getLast hne).isBlank = true :=
    List.rdropWhile_last_not Part.isBlank _ hne
  rw [List.getLast?_eq_some_getLast hne] at hpart
  obtain rfl := Option.some.inj hpart
  exact Bool.eq_false_iff.mpr hnot

/-- For a function that does not see the blanks at the ends of a piece. The inductions take them off
one at a time. -/
theorem apply_core {α : Type} {f : List Part → α}
    (hfront : ∀ (blank : Part) (piece : List Part), blank.isBlank = true →
      f (blank :: piece) = f piece)
    (hback : ∀ (piece : List Part) (blank : Part), blank.isBlank = true →
      f (piece ++ [blank]) = f piece) (piece : List Part) : f (core piece) = f piece := by
  have hdrop : f (piece.dropWhile Part.isBlank) = f piece := by
    induction piece with
    | nil => rfl
    | cons part piece ih =>
        cases hpart : part.isBlank with
        | true => rw [List.dropWhile_cons_of_pos hpart, ih, hfront part piece hpart]
        | false => rw [List.dropWhile_cons_of_neg (by simp [hpart])]
  have hrdrop : ∀ parts : List Part, f (parts.rdropWhile Part.isBlank) = f parts := by
    intro parts
    induction parts using List.reverseRecOn with
    | nil => rfl
    | append_singleton parts part ih =>
        cases hpart : part.isBlank with
        | true => rw [List.rdropWhile_concat_pos _ _ _ hpart, ih, hback parts part hpart]
        | false => rw [List.rdropWhile_concat_neg _ _ _ (by simp [hpart])]
  rw [core, hrdrop, hdrop]

/-- The blanks at the ends of a piece belong to no symbol. -/
theorem words_core (piece : List Part) : words (core piece) = words piece := by
  refine apply_core (fun blank piece hblank => ?_) (fun piece blank hblank => ?_) piece
  · exact words_append_blank hblank [] piece
  · rw [words_append_blank hblank]
    exact List.append_nil _

namespace Part

variable {part : Part}

theorem exists_text_eq (h : part.isBlank = true) :
    ∃ b, part.text = [b] ∧ Text.isBlank b = true := by
  cases part with
  | byte b hb => exact ⟨b, rfl, h⟩
  | quoted quote body hquote hbody => cases h

theorem isBlank_head? : ∀ b ∈ part.text.head?, Text.isBlank b = part.isBlank := by
  cases part with
  | byte b hb => simp [text, isBlank]
  | quoted quote body hquote hbody => simp [text, isBlank, isBlank_of_isQuote hquote]

theorem isBlank_getLast? : ∀ b ∈ part.text.getLast?, Text.isBlank b = part.isBlank := by
  cases part with
  | byte b hb => simp [text, isBlank]
  | quoted quote body hquote hbody =>
      intro b hb
      rw [text, ← List.cons_append, List.getLast?_concat] at hb
      obtain rfl := Option.some.inj hb
      exact isBlank_of_isQuote hquote

end Part

/-- The blanks at the ends of a piece are those at the ends of its bytes. -/
theorem trim_bytes (piece : List Part) : (bytes piece).trim = bytes (core piece) := by
  have htrim : (bytes (core piece)).trim = (bytes piece).trim := by
    refine apply_core (f := fun piece => (bytes piece).trim) (fun blank piece hblank => ?_)
      (fun piece blank hblank => ?_) piece
    · obtain ⟨b, htext, hb⟩ := blank.exists_text_eq hblank
      rw [bytes_cons, htext]
      exact Text.trim_cons_blank hb (bytes piece)
    · obtain ⟨b, htext, hb⟩ := blank.exists_text_eq hblank
      rw [bytes_concat, htext, Text.trim_concat_blank hb]
  rw [← htrim]
  have hhead := head?_core piece
  have hlast := getLast?_core piece
  generalize core piece = parts at hhead hlast
  refine Text.trim_eq_self (fun b hb => ?_) fun b hb => ?_
  · cases parts with
    | nil => cases hb
    | cons part parts =>
        rw [bytes_cons, List.head?_append_of_ne_nil _ part.text_ne_nil] at hb
        rw [part.isBlank_head? b hb, hhead part rfl]
  · rcases List.eq_nil_or_concat parts with rfl | ⟨parts, part, rfl⟩
    · cases hb
    · rw [List.concat_eq_append] at hlast hb
      rw [bytes_concat, List.getLast?_append_of_ne_nil _ part.text_ne_nil] at hb
      rw [part.isBlank_getLast? b hb, hlast part (by simp)]

theorem words_ne_nil {piece : List Part} {part : Part} (hmem : part ∈ piece)
    (hpart : part.isBlank = false) : words piece ≠ [] := by
  induction piece with
  | nil => cases hmem
  | cons first piece ih =>
      cases hfirst : first.isBlank with
      | true =>
          have hne : part ≠ first := fun heq => by
            rw [heq, hfirst] at hpart
            cases hpart
          have hwords : words (first :: piece) = words piece := words_append_blank hfirst [] piece
          rw [hwords]
          exact ih ((List.mem_cons.mp hmem).resolve_left hne)
      | false =>
          obtain ⟨run, runs, hruns⟩ :=
            List.exists_cons_of_ne_nil (List.splitOnP_ne_nil Part.isBlank piece)
          rw [words, List.splitOnP_cons_eq_if_modifyHead, hfirst, if_neg Bool.false_ne_true, hruns]
          exact List.cons_ne_nil _ _

theorem word_injective {s t : Symbol} (h : word s = word t) : s = t := by
  unfold word at h
  split at h <;> split at h <;> simp_all

/-- A piece has one symbol, or none, if this is what its bytes are without the blanks at the
ends. -/
theorem words_eq_word_iff (piece : List Part) {s : Symbol}
    (hs : ∀ b ∈ s, Text.isBlank b = false) : words piece = word s ↔ (bytes piece).trim = s := by
  rw [trim_bytes, ← words_core]
  have hhead := head?_core piece
  have hlast := getLast?_core piece
  generalize core piece = parts at hhead hlast
  constructor
  · intro h
    by_cases hblank : ∃ part ∈ parts, part.isBlank = true
    · -- a blank that is not at an end has a symbol before it and one after it
      exfalso
      obtain ⟨blank, hmem, hb⟩ := hblank
      obtain ⟨before, after, rfl⟩ := List.append_of_mem hmem
      have hbefore : words before ≠ [] := by
        cases before with
        | nil => exact absurd (hb.symm.trans (hhead blank rfl)) (by simp)
        | cons part before => exact words_ne_nil List.mem_cons_self (hhead part rfl)
      have hafter : words after ≠ [] := by
        rcases List.eq_nil_or_concat after with rfl | ⟨after, part, rfl⟩
        · exact absurd (hb.symm.trans (hlast blank (by simp))) (by simp)
        · rw [List.concat_eq_append] at hlast ⊢
          exact words_ne_nil (by simp) (hlast part (by simp [List.getLast?_cons]))
      have hlength : (word s).length ≤ 1 := by
        unfold word
        split <;> simp
      rw [← h, words_append_blank hb, List.length_append] at hlength
      have hposBefore := List.length_pos_iff.mpr hbefore
      have hposAfter := List.length_pos_iff.mpr hafter
      omega
    · have hrun : ∀ part ∈ parts, part.isBlank = false := by simpa using hblank
      exact word_injective ((words_run hrun).symm.trans h)
  · intro h
    have hrun : ∀ part ∈ parts, part.isBlank = false := by
      intro part hpart
      refine Bool.eq_false_iff.mpr fun hblank => ?_
      obtain ⟨b, htext, hb⟩ := part.exists_text_eq hblank
      have hmem : b ∈ bytes parts := List.mem_flatMap.mpr ⟨part, hpart, by simp [htext]⟩
      rw [h] at hmem
      exact absurd (hb.symm.trans (hs b hmem)) (by simp)
    rw [words_run hrun, h]

/-- Whether a piece stands for the empty right-hand side can be told from its bytes alone: they are
blank, or one of the two marks with blanks around it. -/
theorem alternative_bytes (piece : List Part) :
    alternative (bytes piece) (words piece) = rightHandSide (words piece) := by
  rw [alternative, rightHandSide]
  by_cases hempty : words piece = []
  · rw [hempty, ite_self, ite_self]
  · have hnil := words_eq_word_iff piece (s := []) (by simp)
    have hmark := words_eq_word_iff piece (s := Symbol.emptyMark) (by decide +kernel)
    have hepsilon := words_eq_word_iff piece (s := ("epsilon" : Text)) (by decide +kernel)
    refine if_congr ?_ rfl rfl
    rw [← hnil, ← hmark, ← hepsilon]
    exact ⟨fun h => h.resolve_left hempty, Or.inr⟩

/-! ### The scan -/

theorem foldlM_advance_body {quote : UInt8} {body : Text} (h : quote ∉ body) :
    body.foldlM advance (some quote) = some (some quote) := by
  induction body with
  | nil => rfl
  | cons b body ih =>
      have hb : b ≠ quote := fun heq => h (heq ▸ List.mem_cons_self)
      have hadvance : advance (some quote) b = some (some quote) := by
        rw [advance, if_neg hb]
      rw [List.foldlM_cons, hadvance]
      exact ih fun hmem => h (List.mem_cons_of_mem b hmem)

theorem advance_quote {quote : UInt8} (h : isQuote quote = true) :
    advance none quote = some (some quote) := by
  have hbar : quote ≠ '|'.toUInt8 := fun heq => by
    rw [heq] at h
    cases h
  exact advance_eq_some.mpr (Or.inr ⟨rfl, hbar, isBlank_of_isQuote h, (if_pos h).symm⟩)

/-- No quote is open after a part that divides nothing. -/
theorem foldlM_advance_text {part : Part} (hbar : part.isBar = false)
    (hblank : part.isBlank = false) : part.text.foldlM advance none = some none := by
  cases part with
  | byte b hb =>
      have hadvance : advance none b = some none :=
        advance_eq_some.mpr (Or.inr ⟨rfl, by simpa [Part.isBar] using hbar, hblank, by simp [hb]⟩)
      rw [Part.text, List.foldlM_cons, hadvance]
      rfl
  | quoted quote body hquote hbody =>
      have hclose : advance (some quote) quote = some none := by
        rw [advance, if_pos rfl]
      rw [Part.text, List.foldlM_cons, advance_quote hquote]
      show (body ++ [quote]).foldlM advance (some quote) = some none
      rw [foldlM_advance_concat, foldlM_advance_body hbody, Option.bind_some, hclose]

section

variable {part : Part} (pending : Text) (symbols : List Symbol) (raw rest : Text)

theorem scanAlternatives_bar (h : part.isBar = true) :
    scanAlternatives none pending symbols raw (part.text ++ rest) =
      (alternative raw (symbols ++ word pending) :: ·) <$>
        scanAlternatives none [] [] [] rest := by
  cases part with
  | byte b hb =>
      have hbar : b = '|'.toUInt8 := by simpa [Part.isBar] using h
      rw [Part.text, List.singleton_append, scanAlternatives, if_pos hbar]
  | quoted quote body hquote hbody => cases h

theorem scanAlternatives_blank (hbar : part.isBar = false) (h : part.isBlank = true) :
    scanAlternatives none pending symbols raw (part.text ++ rest) =
      scanAlternatives none [] (symbols ++ word pending) (raw ++ part.text) rest := by
  cases part with
  | byte b hb =>
      have hne : ¬ b = '|'.toUInt8 := by simpa [Part.isBar] using hbar
      have hblank : Text.isBlank b = true := h
      rw [Part.text, List.singleton_append, scanAlternatives, if_neg hne, if_pos hblank]
  | quoted quote body hquote hbody => cases h

theorem scanAlternatives_text (hbar : part.isBar = false) (hblank : part.isBlank = false) :
    scanAlternatives none pending symbols raw (part.text ++ rest) =
      scanAlternatives none (pending ++ part.text) symbols (raw ++ part.text) rest :=
  scanAlternatives_append symbols rest pending raw (foldlM_advance_text hbar hblank)

end

/-- The scan of parts in the middle of a piece: `front` is what the piece has of symbols that were
read, and `run` are the parts of the symbol that is being read. What is left is split at its bars,
and the first piece goes on with `front` and `run`. -/
theorem scanAlternatives_bytes (parts : List Part) : ∀ (front run : List Part)
    (symbols : List Symbol) {first : List Part} {others : List (List Part)},
    (∀ piece, words (front ++ piece) = symbols ++ words piece) →
    (∀ part ∈ run, part.isBlank = false) → parts.splitOnP Part.isBar = first :: others →
    scanAlternatives none (bytes run) symbols (bytes (front ++ run)) (bytes parts) =
      .ok (((front ++ run ++ first) :: others).map fun piece => rightHandSide (words piece)) := by
  -- a piece ends after `front` and `run`
  have hend : ∀ {front run : List Part} {symbols : List Symbol},
      (∀ piece, words (front ++ piece) = symbols ++ words piece) →
      (∀ part ∈ run, part.isBlank = false) →
      alternative (bytes (front ++ run)) (symbols ++ word (bytes run)) =
        rightHandSide (words (front ++ run)) := by
    intro front run symbols hfront hrun
    rw [← words_run hrun, ← hfront run, alternative_bytes]
  induction parts with
  | nil =>
      intro front run symbols first others hfront hrun hsplit
      rw [List.splitOnP_nil] at hsplit
      cases hsplit
      rw [List.append_nil, List.map_singleton, ← hend hfront hrun]
      rfl
  | cons part parts ih =>
      intro front run symbols first others hfront hrun hsplit
      obtain ⟨next, pieces, hparts⟩ :=
        List.exists_cons_of_ne_nil (List.splitOnP_ne_nil Part.isBar parts)
      rw [List.splitOnP_cons_eq_if_modifyHead, hparts] at hsplit
      rw [bytes_cons]
      cases hbar : part.isBar with
      | true =>
          rw [hbar, if_pos rfl] at hsplit
          cases hsplit
          have hrest : scanAlternatives none [] [] [] (bytes parts) =
              .ok ((next :: pieces).map fun piece => rightHandSide (words piece)) :=
            ih [] [] [] (fun _ => rfl) (by simp) hparts
          rw [scanAlternatives_bar _ _ _ _ hbar, hrest, hend hfront hrun, List.append_nil]
          rfl
      | false =>
          rw [hbar, if_neg Bool.false_ne_true, List.modifyHead_cons] at hsplit
          cases hsplit
          cases hblank : part.isBlank with
          | true =>
              have hfront' : ∀ piece, words (front ++ run ++ [part] ++ piece) =
                  symbols ++ word (bytes run) ++ words piece := by
                intro piece
                rw [List.append_assoc, List.append_assoc, List.singleton_append, hfront,
                  words_append_blank hblank, words_run hrun, List.append_assoc]
              have hrest := ih (front ++ run ++ [part]) [] _ hfront' (by simp) hparts
              rw [List.append_nil, bytes_concat, List.append_assoc _ [part],
                List.singleton_append] at hrest
              rw [scanAlternatives_blank _ _ _ _ hbar hblank]
              exact hrest
          | false =>
              have hrun' : ∀ p ∈ run ++ [part], p.isBlank = false := by
                intro p hp
                rcases List.mem_append.mp hp with hp | hp
                · exact hrun p hp
                · rwa [List.mem_singleton.mp hp]
              have hrest := ih front (run ++ [part]) symbols hfront hrun' hparts
              rw [← List.append_assoc, bytes_concat, bytes_concat, List.append_assoc _ [part],
                List.singleton_append] at hrest
              rw [scanAlternatives_text _ _ _ _ hbar hblank, hrest]

/-- The alternatives of a right-hand side are those of its parts. -/
theorem scanAlternatives_parts (parts : List Part) :
    scanAlternatives none [] [] [] (bytes parts) = .ok (alternatives parts) := by
  obtain ⟨first, others, hparts⟩ :=
    List.exists_cons_of_ne_nil (List.splitOnP_ne_nil Part.isBar parts)
  rw [alternatives, hparts]
  exact scanAlternatives_bytes parts [] [] [] (fun _ => rfl) (by simp) hparts

/-- The scan fails in an open quote, whatever it has read. -/
theorem EndsQuoted.exists_error {rhs : Text} (h : EndsQuoted rhs) (pending : Text)
    (symbols : List Symbol) (raw : Text) :
    ∃ symbol, scanAlternatives none pending symbols raw rhs = .error symbol := by
  obtain ⟨parts, quote, body, hquote, hbody, rfl⟩ := h
  induction parts generalizing pending symbols raw with
  | nil =>
      have hopen : (quote :: body).foldlM advance none = some (some quote) := by
        rw [List.foldlM_cons, advance_quote hquote]
        exact foldlM_advance_body hbody
      have hscan := scanAlternatives_append symbols [] pending raw hopen
      rw [List.append_nil] at hscan
      exact ⟨pending ++ quote :: body, hscan⟩
  | cons part parts ih =>
      rw [bytes_cons, List.append_assoc]
      cases hbar : part.isBar with
      | true =>
          obtain ⟨symbol, hrest⟩ := ih [] [] []
          rw [scanAlternatives_bar _ _ _ _ hbar, hrest]
          exact ⟨symbol, rfl⟩
      | false =>
          cases hblank : part.isBlank with
          | true =>
              rw [scanAlternatives_blank _ _ _ _ hbar hblank]
              exact ih _ _ _
          | false =>
              rw [scanAlternatives_text _ _ _ _ hbar hblank]
              exact ih _ _ _

end ShiftReduce.Source
