import ShiftReduce.Proofs.Token

/-!
# ShiftReduce.Proofs.Token.Pieces

**An input is read as its pieces.** The pieces of an input are its operator bytes, and its runs of
plain bytes that cannot be made longer on either side (`Token.Piece.Of`). This says nothing about
how they are found, nor about the terminals.

The scan is split in two. `Token.cut` goes through the bytes as the scan does and collects what it
lets out, with offsets; `Token.Answers` says what becomes of a list of pieces: the texts of all of
them, or the first that is not a terminal. That `cut` finds exactly the pieces (`Token.mem_cut`) is
shown from the place where the pending bytes start: a piece that starts among them is the pending
piece, because pieces do not overlap (`Token.Piece.Of.eq_of_overlap`). `Token.tokenize_pieces` puts
the two together.
-/

namespace ShiftReduce.Token

/-! ### Pieces -/

/-- A part of an input, with the offset of its first byte. -/
structure Piece where
  text : Text
  offset : Nat

namespace Piece

/-- The pieces of an input: one operator byte, or plain bytes with none before and none after. -/
inductive Of (input : Text) : Piece → Prop
  | operator {before after : Text} {b : UInt8} (hinput : input = before ++ b :: after)
      (hb : isOperator b = true) : Of input ⟨[b], before.length⟩
  | run {before run after : Text} (hinput : input = before ++ run ++ after) (hne : run ≠ [])
      (hrun : ∀ b ∈ run, isPlain b = true) (hbefore : ∀ b ∈ before.getLast?, isPlain b = false)
      (hafter : ∀ b ∈ after.head?, isPlain b = false) : Of input ⟨run, before.length⟩

/-- What a text starts with, if it starts with a piece. -/
def headText : Text → Text
  | [] => []
  | b :: rest => if isOperator b then [b] else (b :: rest).takeWhile isPlain

namespace Of

variable {input : Text} {p q : Piece}

theorem exists_split (h : Of input p) :
    ∃ before after, input = before ++ p.text ++ after ∧ before.length = p.offset := by
  cases h with
  | operator hinput hb => exact ⟨_, _, by simpa using hinput, rfl⟩
  | run hinput hne hrun hbefore hafter => exact ⟨_, _, hinput, rfl⟩

/-- A piece is determined by where it starts. -/
theorem text_eq (h : Of input p) : p.text = headText (input.drop p.offset) := by
  cases h with
  | operator hinput hb => rw [hinput, List.drop_left, headText, if_pos hb]
  | @run before run after hinput hne hrun hbefore hafter =>
      obtain ⟨b, run, rfl⟩ := List.exists_cons_of_ne_nil hne
      have hb : ¬ isOperator b = true := by
        rw [isOperator_of_isPlain (hrun b List.mem_cons_self)]
        exact Bool.false_ne_true
      have hstop : after.takeWhile isPlain = [] := by
        cases after with
        | nil => rfl
        | cons c after => exact List.takeWhile_cons_of_neg (by simpa using hafter c rfl)
      rw [hinput, List.append_assoc, List.drop_left, List.cons_append, headText, if_neg hb,
        ← List.cons_append, List.takeWhile_append_of_pos hrun, hstop, List.append_nil]

theorem eq_of_offset_eq (h : Of input p) (h' : Of input q) (heq : p.offset = q.offset) :
    p = q := by
  obtain ⟨text, offset⟩ := p
  obtain ⟨text', offset'⟩ := q
  have htext := h.text_eq
  have htext' := h'.text_eq
  dsimp only at heq htext htext'
  rw [htext, htext', heq]

/-- The bytes of a piece in the input. -/
theorem getElem?_of_mem (h : Of input p) {i : Nat} (hle : p.offset ≤ i)
    (hlt : i < p.offset + p.text.length) : ∃ b ∈ p.text, input[i]? = some b := by
  obtain ⟨before, after, hinput, hoffset⟩ := h.exists_split
  have hindex : i - before.length < p.text.length := by omega
  refine ⟨p.text[i - before.length], List.getElem_mem hindex, ?_⟩
  rw [hinput, List.append_assoc, List.getElem?_append_right (by omega),
    List.getElem?_append_left hindex, List.getElem?_eq_getElem hindex]

/-- A piece starts with a byte that is not blank, and with a plain byte only after another one. -/
theorem start_spec (h : Of input p) : ∃ b, input[p.offset]? = some b ∧ Text.isBlank b = false ∧
    (isPlain b = true → ∀ i, i + 1 = p.offset → ∀ c, input[i]? = some c → isPlain c = false) := by
  cases h with
  | @operator before after b hinput hb =>
      refine ⟨b, by simp [hinput], isBlank_of_isOperator hb, fun hplain => ?_⟩
      rw [isOperator_of_isPlain hplain] at hb
      cases hb
  | @run before run after hinput hne hrun hbefore hafter =>
      obtain ⟨b, run, rfl⟩ := List.exists_cons_of_ne_nil hne
      have hb := hrun b List.mem_cons_self
      refine ⟨b, by simp [hinput], isBlank_of_isPlain hb, fun _ i hi c hc => hbefore c ?_⟩
      dsimp only at hi
      rw [hinput, List.append_assoc, List.getElem?_append_left (by omega)] at hc
      rwa [List.getLast?_eq_getElem?, ← hi, Nat.add_sub_cancel]

/-- Pieces do not overlap. -/
theorem eq_of_overlap (h : Of input p) (h' : Of input q) (hle : q.offset ≤ p.offset)
    (hlt : p.offset < q.offset + q.text.length) : p = q := by
  rcases Nat.eq_or_lt_of_le hle with heq | hgt
  · exact h.eq_of_offset_eq h' heq.symm
  · exfalso
    -- the byte where `p` starts and the one before it are both in `q`, which is a run
    obtain ⟨b, hb, -, hstart⟩ := h.start_spec
    obtain ⟨b', hmem, hb'⟩ := h'.getElem?_of_mem hle hlt
    obtain ⟨c, hmem', hc⟩ :=
      h'.getElem?_of_mem (i := p.offset - 1) (by omega) (by omega)
    obtain rfl : b' = b := Option.some.inj (hb'.symm.trans hb)
    have hplain : ∀ d ∈ q.text, isPlain d = true := by
      cases h' with
      | operator hinput hop =>
          dsimp only [List.length_singleton] at hgt hlt
          omega
      | run hinput hne hrun hbefore hafter => exact hrun
    have hnot := hstart (hplain b' hmem) (p.offset - 1) (by omega) c hc
    rw [hplain c hmem'] at hnot
    cases hnot

end Of

end Piece

/-! ### Cutting an input -/

/-- The text as a piece: none if it is empty. -/
def piece (text : Text) (offset : Nat) : List Piece :=
  if text = [] then [] else [⟨text, offset⟩]

/-- The pieces of the rest of an input after the pending bytes, which start at `start`. -/
def cut (pending : Text) (start : Nat) : Text → List Piece
  | [] => piece pending start
  | b :: rest =>
    if isPlain b then cut (pending ++ [b]) start rest
    else
      piece pending start ++ (piece ([b].filter isOperator) (start + pending.length) ++
        cut [] (start + pending.length + 1) rest)

variable {text : Text} {offset : Nat} {p : Piece}

theorem mem_piece : p ∈ piece text offset ↔ text ≠ [] ∧ p = ⟨text, offset⟩ := by
  unfold piece
  split <;> simp_all

theorem offset_of_mem_piece (h : p ∈ piece text offset) : p.offset = offset := by
  rw [(mem_piece.mp h).2]

theorem flatMap_piece (text : Text) (offset : Nat) :
    (piece text offset).flatMap (·.text) = text := by
  unfold piece
  split <;> simp_all

/-- The input without its blanks is cut. -/
theorem flatMap_cut (rest : Text) : ∀ (pending : Text) (start : Nat),
    (cut pending start rest).flatMap (·.text) =
      pending ++ rest.filter fun b => !Text.isBlank b := by
  induction rest with
  | nil => exact fun pending start => by rw [cut, flatMap_piece, List.filter_nil, List.append_nil]
  | cons b rest ih =>
      intro pending start
      rw [cut]
      by_cases hplain : isPlain b = true
      · rw [if_pos hplain, ih, List.filter_cons_of_pos (by simp [isBlank_of_isPlain hplain]),
          List.append_assoc, List.singleton_append]
      · have hb : [b].filter isOperator = [b].filter fun b => !Text.isBlank b := by
          by_cases hb : isOperator b = true
          · simp [hb, isBlank_of_isOperator hb]
          · have hblank : Text.isBlank b = true := by simpa [isPlain, hb] using hplain
            simp [hb, hblank]
        have hcons : (b :: rest).filter (fun b => !Text.isBlank b) =
            [b].filter (fun b => !Text.isBlank b) ++ rest.filter fun b => !Text.isBlank b :=
          List.filter_append [b] rest
        rw [if_neg hplain, List.flatMap_append, List.flatMap_append, flatMap_piece, flatMap_piece,
          ih, hb, hcons, List.nil_append]

/-- No piece starts before the pending bytes. -/
theorem le_offset_of_mem_cut (rest : Text) : ∀ {pending : Text} {start : Nat},
    p ∈ cut pending start rest → start ≤ p.offset := by
  induction rest with
  | nil => exact fun h => Nat.le_of_eq (offset_of_mem_piece h).symm
  | cons b rest ih =>
      intro pending start h
      rw [cut] at h
      split at h
      · exact ih h
      · rw [List.mem_append, List.mem_append] at h
        rcases h with h | h | h
        · exact Nat.le_of_eq (offset_of_mem_piece h).symm
        · rw [offset_of_mem_piece h]
          exact Nat.le_add_right _ _
        · exact Nat.le_trans (by omega) (ih h)

/-- The order in which pieces stand in an input. -/
def Piece.Before (p q : Piece) : Prop :=
  p.offset + p.text.length ≤ q.offset

theorem pairwise_piece_append {pieces : List Piece} (h : pieces.Pairwise Piece.Before)
    (hle : ∀ q ∈ pieces, offset + text.length ≤ q.offset) :
    (piece text offset ++ pieces).Pairwise Piece.Before := by
  unfold piece
  split
  · exact h
  · exact List.pairwise_cons.mpr ⟨hle, h⟩

/-- The pieces are cut in their order. -/
theorem pairwise_cut (rest : Text) : ∀ (pending : Text) (start : Nat),
    (cut pending start rest).Pairwise Piece.Before := by
  induction rest with
  | nil =>
      intro pending start
      rw [cut, ← List.append_nil (piece pending start)]
      exact pairwise_piece_append .nil (by simp)
  | cons b rest ih =>
      intro pending start
      rw [cut]
      split
      · exact ih _ _
      · have hlength : ([b].filter isOperator).length ≤ 1 := List.length_filter_le _ _
        have htail : ∀ q ∈ cut [] (start + pending.length + 1) rest,
            start + pending.length + 1 ≤ q.offset := fun q hq => le_offset_of_mem_cut rest hq
        refine pairwise_piece_append (pairwise_piece_append (ih _ _) ?_) ?_
        · intro q hq
          have := htail q hq
          omega
        · intro q hq
          rcases List.mem_append.mp hq with hq | hq
          · exact Nat.le_of_eq (offset_of_mem_piece hq).symm
          · exact Nat.le_of_succ_le (htail q hq)

/-! ### The pieces that are cut -/

section

variable {before pending : Text}

/-- The pending bytes, when nothing can make them longer. -/
theorem mem_piece_pending (after : Text) (hbefore : ∀ b ∈ before.getLast?, isPlain b = false)
    (hpending : ∀ b ∈ pending, isPlain b = true) (hafter : ∀ b ∈ after.head?, isPlain b = false) :
    p ∈ piece pending before.length ↔ Piece.Of (before ++ pending ++ after) p ∧
      before.length ≤ p.offset ∧ p.offset < before.length + pending.length := by
  have hrun : pending ≠ [] → Piece.Of (before ++ pending ++ after) ⟨pending, before.length⟩ :=
    fun hne => .run rfl hne hpending hbefore hafter
  rw [mem_piece]
  constructor
  · intro ⟨hne, hp⟩
    have hpos := List.length_pos_iff.mpr hne
    rw [hp]
    exact ⟨hrun hne, Nat.le_refl _, Nat.lt_add_of_pos_right hpos⟩
  · intro ⟨hof, hle, hlt⟩
    have hne : pending ≠ [] := List.ne_nil_of_length_pos (by omega)
    exact ⟨hne, hof.eq_of_overlap (hrun hne) hle hlt⟩

/-- A byte that is not plain is a piece if it is an operator. -/
theorem mem_piece_operator (before after : Text) {b : UInt8} (hb : isPlain b = false) :
    p ∈ piece ([b].filter isOperator) before.length ↔
      Piece.Of (before ++ b :: after) p ∧ p.offset = before.length := by
  rw [mem_piece]
  constructor
  · intro ⟨hne, hp⟩
    have hop : isOperator b = true := by
      refine Decidable.byContradiction fun hop => ?_
      exact hne (List.filter_cons_of_neg hop)
    rw [hp, List.filter_cons_of_pos hop]
    exact ⟨.operator rfl hop, rfl⟩
  · intro ⟨hof, hoffset⟩
    obtain ⟨c, hc, hblank, -⟩ := hof.start_spec
    obtain rfl : b = c := by simpa [hoffset] using hc
    have hop : isOperator b = true := by simpa [isPlain, hblank] using hb
    have hpiece : Piece.Of (before ++ b :: after) ⟨[b], before.length⟩ := .operator rfl hop
    rw [List.filter_cons_of_pos hop]
    exact ⟨List.cons_ne_nil _ _, hof.eq_of_offset_eq hpiece hoffset⟩

end

/-- The pieces that are cut are the pieces of the whole input from the pending bytes on. -/
theorem mem_cut (rest : Text) : ∀ (before pending : Text),
    (∀ b ∈ before.getLast?, isPlain b = false) → (∀ b ∈ pending, isPlain b = true) →
    (p ∈ cut pending before.length rest ↔
      Piece.Of (before ++ pending ++ rest) p ∧ before.length ≤ p.offset) := by
  induction rest with
  | nil =>
      intro before pending hbefore hpending
      rw [cut, mem_piece_pending [] hbefore hpending (by simp)]
      constructor
      · exact fun ⟨hof, hle, _⟩ => ⟨hof, hle⟩
      · intro ⟨hof, hle⟩
        obtain ⟨b, hb, -⟩ := hof.start_spec
        have hlt := (List.getElem?_eq_some_iff.mp hb).1
        rw [List.append_nil, List.length_append] at hlt
        exact ⟨hof, hle, hlt⟩
  | cons b rest ih =>
      intro before pending hbefore hpending
      have hinput : before ++ pending ++ [b] ++ rest = before ++ pending ++ b :: rest := by simp
      rw [cut]
      by_cases hplain : isPlain b = true
      · have hpending' : ∀ c ∈ pending ++ [b], isPlain c = true := by
          intro c hc
          rcases List.mem_append.mp hc with hc | hc
          · exact hpending c hc
          · rwa [List.mem_singleton.mp hc]
        rw [if_pos hplain, ih _ _ hbefore hpending', ← List.append_assoc, hinput]
      · have hb : isPlain b = false := by simpa using hplain
        -- what starts after `b` is cut with `b` before it
        have htail := ih (before ++ pending ++ [b]) [] (by simp [hb]) (by simp)
        have hoperator := mem_piece_operator (p := p) (before ++ pending) rest hb
        have hpending' := mem_piece_pending (p := p) (b :: rest) hbefore hpending (by simp [hb])
        rw [List.append_nil, hinput] at htail
        rw [List.length_append] at hoperator
        rw [List.length_append, List.length_append, List.length_singleton] at htail
        rw [if_neg hplain, List.mem_append, List.mem_append, hpending', hoperator, htail,
          ← and_or_left, ← and_or_left]
        exact and_congr_right fun _ => by omega

/-! ### What is answered -/

variable {terminals : SymbolSet} {pieces : List Piece} {result : Except LexError (List Symbol)}

/-- The answer to a list of pieces: the texts of all of them and the end mark, or the first one that
is not a terminal. -/
inductive Answers (terminals : SymbolSet) :
    List Piece → Except LexError (List Symbol) → Prop
  | tokens {pieces : List Piece} (hall : ∀ p ∈ pieces, p.text ∈ terminals) :
      Answers terminals pieces (.ok (pieces.map (·.text) ++ [Symbol.endMark]))
  | unknown (before : List Piece) (p : Piece) {after : List Piece}
      (hbefore : ∀ q ∈ before, q.text ∈ terminals) (hp : p.text ∉ terminals) :
      Answers terminals (before ++ p :: after) (.error ⟨p.text, p.offset, terminals.toList⟩)

/-- A piece is let out in front of the answer to what comes after it. -/
theorem Answers.emit (h : Answers terminals pieces result) (text : Text) (offset : Nat) :
    Answers terminals (piece text offset ++ pieces) (do
      let before ← Token.emit terminals text offset
      let after ← result
      return before ++ after) := by
  by_cases hne : text = []
  · subst hne
    cases h with
    | tokens hall => exact .tokens hall
    | unknown before p hbefore hp => exact .unknown before p hbefore hp
  · rw [piece, if_neg hne, List.singleton_append]
    by_cases hmem : text ∈ terminals
    · rw [emit_of_mem hne hmem]
      cases h with
      | tokens hall => exact .tokens (List.forall_mem_cons.mpr ⟨hmem, hall⟩)
      | unknown before p hbefore hp =>
          exact .unknown (⟨text, offset⟩ :: before) p
            (List.forall_mem_cons.mpr ⟨hmem, hbefore⟩) hp
    · rw [Token.emit, if_neg hne, if_neg (mt Std.ExtTreeSet.contains_iff_mem.mp hmem)]
      exact .unknown [] ⟨text, offset⟩ (by simp) hmem

/-- Where no byte is pending, it does not matter where the last token started. -/
theorem emit_congr {pending : Text} {start start' : Nat} (h : pending ≠ [] → start' = start) :
    emit terminals pending start' = emit terminals pending start := by
  by_cases hne : pending = []
  · rw [hne, emit_nil, emit_nil]
  · rw [h hne]

/-- The scan answers what is cut from the same bytes. -/
theorem scan_answers (rest : Text) : ∀ {pending : Text} {start start' : Nat},
    (pending ≠ [] → start' = start) →
    Answers terminals (cut pending start rest)
      (scan terminals pending start' (start + pending.length) rest) := by
  induction rest with
  | nil =>
      intro pending start start' hstart
      have hend : Answers terminals [] (.ok [Symbol.endMark]) := .tokens (by simp)
      have := hend.emit pending start
      rw [List.append_nil] at this
      rw [scan, cut, emit_congr hstart]
      exact this
  | cons b rest ih =>
      intro pending start start' hstart
      have hrest : Answers terminals (cut [] (start + pending.length + 1) rest)
          (scan terminals [] start' (start + pending.length + 1) rest) := ih (by simp)
      rw [scan, cut, emit_congr hstart]
      by_cases hblank : Text.isBlank b = true
      · have hop : ¬ isOperator b = true := fun hop => by
          rw [isBlank_of_isOperator hop] at hblank
          cases hblank
        rw [if_pos hblank, if_neg (by simp [isPlain, hblank]), List.filter_cons_of_neg hop]
        exact hrest.emit pending start
      · by_cases hop : isOperator b = true
        · rw [if_neg hblank, if_pos hop, if_neg (by simp [isPlain, hop]),
            List.filter_cons_of_pos hop, List.filter_nil]
          have := (hrest.emit [b] (start + pending.length)).emit pending start
          simpa only [bind_assoc, pure_bind, List.append_assoc] using this
        · have hplain : isPlain b = true := by simp [isPlain, hblank, hop]
          rw [if_neg hblank, if_neg hop, if_pos hplain]
          have hlength : start + (pending ++ [b]).length = start + pending.length + 1 := by
            rw [List.length_append, List.length_singleton, Nat.add_assoc]
          rw [← hlength]
          refine ih fun _ => ?_
          split
          · simp_all
          · exact hstart ‹_›

/-! ### The main result -/

/-- The pieces of an input, each of them once and in their order. -/
structure Cuts (input : Text) (pieces : List Piece) : Prop where
  ordered : pieces.Pairwise Piece.Before
  mem_iff : ∀ p, p ∈ pieces ↔ Piece.Of input p

theorem cuts (input : Text) : Cuts input (cut [] 0 input) where
  ordered := pairwise_cut input [] 0
  mem_iff p := by
    have := mem_cut (p := p) input [] [] (by simp) (by simp)
    simpa using this

/-- A piece stands in the input where it says. -/
theorem Piece.Of.take_drop {input : Text} (h : Of input p) :
    (input.drop p.offset).take p.text.length = p.text := by
  obtain ⟨before, after, hinput, hoffset⟩ := h.exists_split
  rw [hinput, ← hoffset, List.append_assoc, List.drop_left, List.take_left]

/-- **An input is read as its pieces.** Without its blanks it is their texts, one after the other.
If all of them are terminals, they are the tokens, and the end mark follows; otherwise the first
that is not a terminal is reported, and where it starts. -/
theorem tokenize_pieces (terminals : SymbolSet) (input : Text) :
    ∃ pieces, Cuts input pieces ∧
      pieces.flatMap (·.text) = input.filter (fun b => !Text.isBlank b) ∧
      ((∃ tokens, tokenize terminals input = .ok tokens) ↔ ∀ p ∈ pieces, p.text ∈ terminals) ∧
      (∀ tokens, tokenize terminals input = .ok tokens →
        tokens = pieces.map (·.text) ++ [Symbol.endMark]) ∧
      ∀ e, tokenize terminals input = .error e →
        ∃ before p after, pieces = before ++ p :: after ∧ (∀ q ∈ before, q.text ∈ terminals) ∧
          p.text ∉ terminals ∧ e = ⟨p.text, p.offset, terminals.toList⟩ ∧
          (input.drop e.position).take e.token.length = e.token := by
  have hcuts := cuts input
  have hanswers : Answers terminals (cut [] 0 input) (tokenize terminals input) :=
    scan_answers input (by simp)
  refine ⟨cut [] 0 input, hcuts, flatMap_cut input [] 0, ?_⟩
  generalize cut [] 0 input = pieces at hcuts hanswers
  generalize tokenize terminals input = result at hanswers
  cases hanswers with
  | tokens hall =>
      refine ⟨⟨fun _ => hall, fun _ => ⟨_, rfl⟩⟩, ?_, ?_⟩
      · intro tokens htokens
        exact (Except.ok.inj htokens).symm
      · intro e he
        cases he
  | @unknown before p after hbefore hp =>
      have hmem : p ∈ before ++ p :: after := List.mem_append_right _ List.mem_cons_self
      refine ⟨⟨?_, fun hall => absurd (hall p hmem) hp⟩, ?_, ?_⟩
      · intro ⟨_, h⟩
        cases h
      · intro _ h
        cases h
      · intro e he
        obtain rfl := Except.error.inj he
        exact ⟨before, p, after, rfl, hbefore, hp, rfl, ((hcuts.mem_iff p).mp hmem).take_drop⟩

end ShiftReduce.Token
