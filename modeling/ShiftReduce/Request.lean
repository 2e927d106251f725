import ShiftReduce.Engine
import ShiftReduce.Generation
import ShiftReduce.Token

/-!
# Parse requests

A request parses an input with generated tables. Tables with conflicts are refused. Otherwise the
input is divided into tokens, which may fail, and the engine runs on the tokens. A run that never
ends has no answer.
-/

namespace ShiftReduce

/-- What became of an input. -/
inductive Verdict where
  /-- The table has conflicts, and nothing was parsed. -/
  | conflicts (shiftReduce reduceReduce : List Conflict)
  /-- A piece of the input is not a terminal. -/
  | unreadable (error : LexError)
  /-- The engine ran on the tokens of the input. -/
  | parsed (tokens : List Symbol) (result : ParseResult)

/-- The answer to a request. -/
structure Response where
  mode : Mode
  verdict : Verdict

namespace Response

/-- Parses an input with generated tables, in at most `limit` steps. There is no answer if the run
of the engine never ends. -/
def ofInput (gen : Generation) (limit : UInt64) (input : Text) :
    Option (Except Missing Response) :=
  if gen.isValid then
    match Token.tokenize gen.grammar.terminals input with
    | .error e => some (.ok ⟨gen.mode, .unreadable e⟩)
    | .ok tokens =>
      (Engine.execute gen.grammar gen.table limit tokens).map fun result =>
        result.map fun result => ⟨gen.mode, .parsed tokens result⟩
  else
    some (.ok ⟨gen.mode,
      .conflicts (gen.table.conflictsOf .shiftReduce) (gen.table.conflictsOf .reduceReduce)⟩)

/-! ### Views -/

/-- Whether the table was refused. -/
def rejected (r : Response) : Bool :=
  match r.verdict with
  | .conflicts .. => true
  | _ => false

/-- The run of the engine, if there was one. -/
def result? (r : Response) : Option ParseResult :=
  match r.verdict with
  | .parsed _ result => some result
  | _ => none

def accepted (r : Response) : Bool :=
  r.result?.any ParseResult.accepted

def failure? (r : Response) : Option Failure :=
  r.result?.bind ParseResult.failure?

def tokens (r : Response) : List Symbol :=
  match r.verdict with
  | .parsed tokens _ => tokens
  | _ => []

def trace (r : Response) : List TraceStep :=
  (r.result?.map (·.trace)).getD []

/-- The store and the root of the tree of an accepted input. -/
def root? (r : Response) : Option (Arena × NodeId) :=
  r.result?.bind fun result => result.root?.map (result.arena, ·)

def tree? (r : Response) : Except Missing (Option Tree) :=
  match r.root? with
  | none => .ok none
  | some (arena, root) => some <$> arena.tree root

/-- The tree of an accepted input in brackets. -/
def treeText? (r : Response) : Except Missing (Option Text) := do
  return (← r.tree?).map Tree.toText

/-- Why the input was not accepted; empty if it was. -/
def errorText (r : Response) : Text :=
  match r.verdict with
  | .conflicts .. =>
    "Grammar is not " ++ r.mode.toText ++ ". Cannot parse with conflicts."
  | .unreadable e => e.message.upToNul
  | .parsed _ result => (result.failure?.map Failure.message).getD []

/-! ### In text -/

/-- An accepted tree: in brackets, and indented if `showTrace`. -/
def acceptedText (g : Grammar) (tree : Tree) (showTrace : Bool) : Except Missing Text := do
  let indented ←
    if showTrace then (Text.ofString "\n--Parse Tree--\n" ++ ·) <$> tree.indented g else .ok []
  return Text.line "accepted" ++ tree.toText.line ++ indented

/-- The answer, with the steps and the indented tree if `showTrace`. -/
def toText (g : Grammar) (r : Response) (showTrace : Bool) : Except Missing Text := do
  match r.verdict with
  | .conflicts shiftReduce reduceReduce =>
    return r.errorText.line ++ (shiftReduce ++ reduceReduce).flatMap (·.toText.line)
  | _ =>
    let steps := if showTrace && !r.trace.isEmpty then traceListing r.trace else []
    match ← r.tree? with
    | some tree => return steps ++ (← acceptedText g tree showTrace)
    | none =>
      let kind : Text :=
        match r.failure? with
        | some failure => " (" ++ failure.kind ++ ")"
        | none => []
      return steps ++ Text.line ("rejected" ++ kind ++ ": " ++ r.errorText)

end Response

end ShiftReduce
