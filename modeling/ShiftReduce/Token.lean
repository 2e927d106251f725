import ShiftReduce.Grammar

/-!
# Tokens of an input

Blanks divide an input, and every operator byte is a token by itself. The bytes between them form
one token. Each token has to be a terminal, and the end mark closes the list.

The input is read in one pass, which knows the token that is being read and where it starts.
-/

namespace ShiftReduce

/-- A piece of the input that is not a terminal. -/
structure LexError where
  token : Text
  /-- The offset of its first byte. -/
  position : Nat
  terminals : List Symbol
  deriving DecidableEq, Repr

/-- The complaint about an unknown token. -/
def LexError.message (e : LexError) : Text :=
  "Unknown token: '" ++ e.token ++ "' at position " ++ Text.ofNat e.position ++
    ". Valid terminals: [" ++ Text.join ", " (e.terminals.map fun t => "'" ++ t ++ "'") ++ "]"

namespace Token

def operators : List UInt8 :=
  Text.ofString "+-*/()=,;:.&|!<>"

def isOperator (b : UInt8) : Bool :=
  operators.contains b

/-- The token that has been read, if there is one: nothing if no byte of it was read. -/
def emit (terminals : SymbolSet) (token : Text) (position : Nat) :
    Except LexError (List Symbol) :=
  if token = [] then .ok []
  else if terminals.contains token then .ok [token]
  else .error ⟨token, position, terminals.toList⟩

/-- Reads the rest of an input from an offset. `pending` is the token being read, which started at
`start`. -/
def scan (terminals : SymbolSet) (pending : Text) (start offset : Nat) :
    Text → Except LexError (List Symbol)
  | [] => do
    let last ← emit terminals pending start
    return last ++ [Symbol.endMark]
  | b :: rest =>
    if Text.isBlank b then do
      let before ← emit terminals pending start
      let after ← scan terminals [] start (offset + 1) rest
      return before ++ after
    else if isOperator b then do
      let before ← emit terminals pending start
      let operator ← emit terminals [b] offset
      let after ← scan terminals [] start (offset + 1) rest
      return before ++ operator ++ after
    else
      scan terminals (pending ++ [b]) (if pending = [] then offset else start) (offset + 1) rest

/-- The tokens of an input, the end mark last. -/
def tokenize (terminals : SymbolSet) (input : Text) : Except LexError (List Symbol) :=
  scan terminals [] 0 0 input

end Token

end ShiftReduce
