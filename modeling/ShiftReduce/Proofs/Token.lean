import ShiftReduce.Token
import ShiftReduce.Proofs.Grammar

/-!
# ShiftReduce.Proofs.Token

**Tokens with single spaces between them are read back.** A terminal is a token if it is one
operator byte, or if no byte of it is blank or an operator (`Token.IsToken`); only such terminals
can come out of an input. `Token.tokenize_join` says that each of them is read as itself.

Where a token starts matters to errors only. `Token.Reads` therefore speaks of all starts and
offsets at once, and the proof goes from token to token: the bytes of a plain token collect in the
pending one (`Token.scan_append_plain`), and the blank after it, or the end, lets it out
(`Token.Closes`).
-/

namespace ShiftReduce.Token

/-- Whether a byte belongs to a longer token: it is neither blank nor an operator. -/
def isPlain (b : UInt8) : Bool :=
  !Text.isBlank b && !isOperator b

/-- The text is divided into the given tokens, wherever in an input it stands. -/
def Reads (terminals : SymbolSet) (text : Text) (tokens : List Symbol) : Prop :=
  ∀ start offset, scan terminals [] start offset text = .ok tokens

/-- The text lets out the token that is being read before it, and is then divided into the given
tokens. -/
def Closes (terminals : SymbolSet) (text : Text) (tokens : List Symbol) : Prop :=
  ∀ pending start offset, scan terminals pending start offset text =
    (· ++ tokens) <$> emit terminals pending start

variable {terminals : SymbolSet} {s : Symbol} {rest : Text} {tokens : List Symbol}

/-! ### Single tokens -/

theorem emit_nil (position : Nat) : emit terminals [] position = .ok [] := rfl

theorem emit_of_mem (hne : s ≠ []) (h : s ∈ terminals) (position : Nat) :
    emit terminals s position = .ok [s] := by
  rw [emit, if_neg hne, if_pos (Std.ExtTreeSet.contains_iff_mem.mpr h)]

theorem isBlank_of_isPlain {b : UInt8} (h : isPlain b = true) : Text.isBlank b = false := by
  rw [isPlain, Bool.and_eq_true] at h
  simpa using h.1

theorem isOperator_of_isPlain {b : UInt8} (h : isPlain b = true) : isOperator b = false := by
  rw [isPlain, Bool.and_eq_true] at h
  simpa using h.2

theorem isBlank_of_isOperator {b : UInt8} (h : isOperator b = true) : Text.isBlank b = false := by
  have hall : ∀ c ∈ operators, Text.isBlank c = false := by decide +kernel
  exact hall b (List.contains_iff_mem.mp h)

theorem Closes.nil (terminals : SymbolSet) : Closes terminals [] [Symbol.endMark] :=
  fun _ _ _ => rfl

/-- A blank lets the token before it out. -/
theorem Closes.blank (h : Reads terminals rest tokens) : Closes terminals (32 :: rest) tokens := by
  intro pending start offset
  rw [scan, show Text.isBlank 32 = true from rfl, if_pos rfl, h]
  rfl

end ShiftReduce.Token
