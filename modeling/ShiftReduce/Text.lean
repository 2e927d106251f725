/-!
# Byte texts

Grammar files, symbols, tokens and listings are texts, and a text is the list of its bytes. Offsets,
columns, comparisons and the order of symbols are all by byte, and a text need not be valid UTF-8:
a message may quote a single byte of a longer character.

This module provides:

* `Text` and the coercion that reads a string as its UTF-8 bytes;
* the blank bytes (space, tab, newline, vertical tab, form feed, carriage return) and `Text.trim`;
* the cuts that the readers need: `Text.lines`, `Text.splitArrow?`, `Text.after?`, `Text.upToNul`;
* decimal numbers, read by `Text.toNat?`;
* the pieces that listings are made of: `Text.ofNat`, `Text.join`, `Text.line`.
-/

namespace ShiftReduce

/-- A text is the list of its bytes. -/
abbrev Text := List UInt8

namespace Text

/-- The UTF-8 bytes of a string. -/
def ofString (s : String) : Text :=
  s.toByteArray.data.toList

instance : Coe String Text := ⟨ofString⟩

def ofNat (n : Nat) : Text :=
  (Nat.toDigits 10 n).map Char.toUInt8

/-- The parts in order, with `separator` between neighbours. -/
def join (separator : Text) (parts : List Text) : Text :=
  List.intercalate separator parts

/-- A text and the newline that ends it. -/
def line (t : Text) : Text :=
  t ++ ofString "\n"

/-! ### Blank bytes -/

/-- Space, and the control bytes from tab to carriage return. -/
def isBlank (b : UInt8) : Bool :=
  b == 32 || (9 ≤ b && b ≤ 13)

/-- The number of blank bytes a text starts with. -/
def leadingBlanks (t : Text) : Nat :=
  (t.takeWhile isBlank).length

/-- A text without the blank bytes at its two ends. -/
def trim (t : Text) : Text :=
  ((t.dropWhile isBlank).reverse.dropWhile isBlank).reverse

/-! ### Cuts -/

/-- The lines of a text. A newline ends a line, so none follows a last newline. -/
def lines : Text → List Text
  | [] => []
  | b :: t =>
    if b = '\n'.toUInt8 then [] :: lines t
    else
      match lines t with
      | [] => [[b]]
      | l :: ls => (b :: l) :: ls

/-- The bytes before and after the first arrow, written as a hyphen and a greater-than sign. -/
def splitArrow? : Text → Option (Text × Text)
  | [] => none
  | b :: t =>
    match b, t with
    | 45, 62 :: rest => some ([], rest)
    | b, t => (splitArrow? t).map fun (left, right) => (b :: left, right)

/-- What stands after `head`, if the text starts with it. -/
def after? (head t : Text) : Option Text :=
  if head.isPrefixOf t then some (t.drop head.length) else none

/-- The bytes before the first NUL. A text handed on as a NUL-terminated message loses the rest. -/
def upToNul (t : Text) : Text :=
  t.takeWhile (· != 0)

/-! ### Decimal numbers -/

def isDigit (b : UInt8) : Bool :=
  48 ≤ b && b ≤ 57

/-- The number that a list of digits stands for. -/
def ofDigits (digits : Text) : Nat :=
  digits.foldl (fun n b => 10 * n + (b - 48).toNat) 0

/-- The number that a text of digits stands for; none for a text that is empty or holds another
byte. -/
def toNat? (t : Text) : Option Nat :=
  if !t.isEmpty && t.all isDigit then some (ofDigits t) else none

end Text

end ShiftReduce
