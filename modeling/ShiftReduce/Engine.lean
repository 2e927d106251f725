import ShiftReduce.Stack
import ShiftReduce.Table
import ShiftReduce.Tree

/-!
# The shift/reduce engine

A configuration is a stack of states and symbols, the roots of the trees built for those symbols,
and the input that is left. The table decides each move from the state on top and the next token. A
shift pushes the token, with a leaf for it. A reduction by `A -> X₁ … Xₙ` takes `n` symbols and `n`
roots away, and pushes `A`, with a node for it over those roots.

The engine runs on any table, generated or not. Whatever a table can ask for that cannot be done
ends the run with a `Failure`. `Missing` covers what no table can bring about: roots that are not
there.

A run makes at most a given number of moves. Its trace has a step for every configuration that was
looked at, and says which move was made. The last step of a failed run carries the failure, unless
the run failed because the limit was reached.

A request counts its steps in 64 bits. No count is beyond the largest one, so as a limit it is none:
`Engine.loop` may go on forever, and then it has no result.
-/

namespace ShiftReduce

/-! ### Failures -/

/-- Why a run stopped without accepting. -/
inductive Failure where
  /-- The table has no action for the state and the token. -/
  | noAction (state : Nat) (token : Symbol)
  /-- The table does not say where to go on the reduced symbol. -/
  | noGoto (state : Nat) (token symbol : Symbol)
  /-- A reduction asks for more cells than the stack has above its bottom. -/
  | underflow (state : Nat) (token : Symbol) (cells count : Nat)
  /-- No state is on top after a reduction took its cells away. -/
  | uncovered (token : Symbol) (cells : Nat)
  /-- No state is on top of the stack. -/
  | emptyStack
  /-- The input has no token left. -/
  | endOfInput (state : Nat)
  /-- The run made as many moves as it was allowed. -/
  | stepLimit (limit : Nat)
  /-- The table accepts while there is not exactly one tree. -/
  | incompleteTree (state : Nat) (token : Symbol) (roots : Nat)
  /-- The table reduces by a production that the grammar does not have. -/
  | invalidProduction (state : Nat) (token : Symbol) (rule : Nat)
  deriving DecidableEq, Repr

namespace Failure

/-- The name of the kind of failure. -/
def kind : Failure → Text
  | .noAction .. => "NoAction"
  | .noGoto .. => "NoGoto"
  | .underflow .. | .uncovered .. | .emptyStack => "StackUnderflow"
  | .endOfInput .. => "UnexpectedEndOfInput"
  | .stepLimit .. => "StepLimitExceeded"
  | .incompleteTree .. => "IncompleteTree"
  | .invalidProduction .. => "InvalidProduction"

/-- The state on top of the stack when the run stopped. -/
def state? : Failure → Option Nat
  | .noAction state _ | .noGoto state _ _ | .underflow state _ _ _ | .endOfInput state
  | .incompleteTree state _ _ | .invalidProduction state _ _ => some state
  | .uncovered .. | .emptyStack | .stepLimit .. => none

/-- The token that was looked at; empty if there was none. -/
def token : Failure → Symbol
  | .noAction _ token | .noGoto _ token _ | .underflow _ token _ _ | .uncovered token _
  | .incompleteTree _ token _ | .invalidProduction _ token _ => token
  | .emptyStack | .endOfInput .. | .stepLimit .. => []

def message : Failure → Text
  | .noAction state token =>
    "No action defined for state " ++ Text.ofNat state ++ " and token '" ++ token ++ "'"
  | .noGoto state _ symbol =>
    "No GOTO defined for state " ++ Text.ofNat state ++ " and non-terminal " ++ symbol
  | .underflow _ _ cells count =>
    "Stack underflow: trying to pop " ++ Text.ofNat cells ++ " items from stack of size " ++
      Text.ofNat count
  | .uncovered _ cells =>
    "Stack underflow: no state left after popping " ++ Text.ofNat cells ++ " items"
  | .emptyStack => "Stack is empty"
  | .endOfInput _ => "Unexpected end of input"
  | .stepLimit limit => "Parser exceeded maximum steps (" ++ Text.ofNat limit ++ ")"
  | .incompleteTree _ _ roots =>
    "Incomplete parse tree: " ++ Text.ofNat roots ++ " roots left on accept"
  | .invalidProduction _ _ rule => "Invalid production index: " ++ Text.ofNat rule

end Failure

/-! ### Moves -/

/-- Where a run stands. -/
structure Config where
  /-- The cells of the stack, the top first. -/
  stack : List Cell
  /-- The roots of the trees of the symbols on the stack, the top first. -/
  roots : List NodeId
  arena : Arena
  input : List Symbol
  deriving DecidableEq

/-- What the engine does in a configuration. -/
inductive Move where
  /-- It reads the token and goes to a state. -/
  | shift (token : Symbol) (target : Nat) (next : Config)
  /-- It reduces by the production and goes to a state. -/
  | reduce (production : Production) (target : Nat) (next : Config)
  /-- It accepts with the root of the tree. -/
  | accept (root : NodeId)
  | fail (failure : Failure)
  deriving DecidableEq

/-- The move in words. -/
def Move.message : Move → Text
  | .shift token target _ => "Shift " ++ token ++ ", goto state " ++ Text.ofNat target
  | .reduce production target _ =>
    "Reduce " ++ production.toText ++ ", goto state " ++ Text.ofNat target
  | .accept _ => "Input accepted!"
  | .fail failure => failure.message

namespace Config

/-- The configuration before the first move. -/
def initial (tokens : List Symbol) : Config :=
  ⟨[.state 0], [], .empty, tokens⟩

def shift (c : Config) (token : Symbol) (rest : List Symbol) (target : Nat) : Move :=
  let (leaf, arena) := c.arena.leaf token
  .shift token target ⟨.state target :: .symbol token :: c.stack, leaf :: c.roots, arena, rest⟩

/-- The children of a node over the top `n` roots, from left to right, and the roots below them. -/
def takeRoots (n : Nat) (roots : List NodeId) : Except Missing (List NodeId × List NodeId) :=
  if n ≤ roots.length then .ok ((roots.take n).reverse, roots.drop n) else .error .root

/-- Reduces by a production, by its number. -/
def reduce (g : Grammar) (t : Table) (c : Config) (state : Nat) (token : Symbol) (rule : Nat) :
    Except Missing Move :=
  match g.rule? rule with
  | none => .ok (.fail (.invalidProduction state token rule))
  | some p =>
    let cells := 2 * p.rhs.length
    if c.stack.length ≤ cells then .ok (.fail (.underflow state token cells c.stack.length))
    else
      let below := c.stack.drop cells
      match topState? below with
      | none => .ok (.fail (.uncovered token cells))
      | some uncovered =>
        match t.goto? uncovered p.lhs with
        | none => .ok (.fail (.noGoto uncovered token p.lhs))
        | some target => do
          let (children, roots) ← takeRoots p.rhs.length c.roots
          let (node, arena) ← c.arena.node p.lhs rule children
          return .reduce p target
            ⟨.state target :: .symbol p.lhs :: below, node :: roots, arena, c.input⟩

/-- Accepts the tree, if it is the only one. -/
def accept (c : Config) (state : Nat) (token : Symbol) : Move :=
  match c.roots with
  | [root] => .accept root
  | roots => .fail (.incompleteTree state token roots.length)

/-- The move that an action calls for. -/
def move (g : Grammar) (t : Table) (c : Config) (state : Nat) (token : Symbol)
    (rest : List Symbol) : Option Action → Except Missing Move
  | none | some .error => .ok (.fail (.noAction state token))
  | some .accept => .ok (c.accept state token)
  | some (.shift target) => .ok (c.shift token rest target)
  | some (.reduce rule) => c.reduce g t state token rule

end Config

/-! ### Runs -/

/-- A configuration that was looked at, and the move that was made. -/
structure TraceStep where
  /-- The number of the step, from 1. -/
  number : Nat
  /-- The cells of the stack, the top first. -/
  stack : List Cell
  input : List Symbol
  action : Option Action
  state : Nat
  /-- The token that was looked at; empty if there was none. -/
  token : Symbol
  message : Text
  isError : Bool
  deriving DecidableEq, Repr

/-- What a look at a configuration leads to. -/
inductive Turn where
  /-- The run goes on. -/
  | moved (step : TraceStep) (next : Config)
  /-- The run ends with this step. -/
  | ended (step : TraceStep) (outcome : Except Failure NodeId)
  /-- There is no state to look at. -/
  | stuck

/-- Looks at a configuration, and makes the move that the table calls for. -/
def Config.turn (g : Grammar) (t : Table) (number : Nat) (c : Config) : Except Missing Turn :=
  match topState? c.stack, c.input with
  | none, _ => .ok .stuck
  | some state, [] =>
    let failure := .endOfInput state
    .ok (.ended ⟨number, c.stack, [], none, state, [], failure.message, true⟩ (.error failure))
  | some state, token :: rest => do
    let action := t.action? state token
    let move ← c.move g t state token rest action
    let step (isError : Bool) : TraceStep :=
      ⟨number, c.stack, token :: rest, action, state, token, move.message, isError⟩
    return match move with
      | .shift _ _ next => .moved (step false) next
      | .reduce _ _ next => .moved (step false) next
      | .accept root => .ended (step false) (.ok root)
      | .fail failure => .ended (step true) (.error failure)

/-- How a run ended. -/
structure ParseResult where
  /-- The root of the tree of an accepted input. -/
  outcome : Except Failure NodeId
  trace : List TraceStep
  arena : Arena

namespace ParseResult

def accepted (r : ParseResult) : Bool :=
  r.outcome.isOk

/-- The root of the tree of an accepted input. -/
def root? (r : ParseResult) : Option NodeId :=
  r.outcome.toOption

def failure? (r : ParseResult) : Option Failure :=
  match r.outcome with
  | .ok _ => none
  | .error failure => some failure

end ParseResult

namespace Engine

/-- The trace with its last step marked as the one that failed. -/
def markLast (trace : Array TraceStep) (failure : Failure) : Array TraceStep :=
  trace.modify (trace.size - 1) fun s => { s with message := failure.message, isError := true }

/-- Makes at most `fuel` more moves, where `number` is the number of the next step. -/
def run (g : Grammar) (t : Table) (limit : Nat) :
    Nat → Nat → Config → Array TraceStep → Except Missing ParseResult
  | 0, _, c, trace => .ok ⟨.error (.stepLimit limit), trace.toList, c.arena⟩
  | fuel + 1, number, c, trace =>
    match c.turn g t number with
    | .error e => .error e
    | .ok (.moved step next) => run g t limit fuel (number + 1) next (trace.push step)
    | .ok (.ended step outcome) => .ok ⟨outcome, (trace.push step).toList, c.arena⟩
    | .ok .stuck => .ok ⟨.error .emptyStack, (markLast trace .emptyStack).toList, c.arena⟩

/-- Runs the table on a list of tokens, which should end with the end mark. -/
def parse (g : Grammar) (t : Table) (limit : Nat) (tokens : List Symbol) :
    Except Missing ParseResult :=
  run g t limit limit 1 (.initial tokens) #[]

/-- Makes moves while the number of the next step is not beyond the limit. The number is counted in
64 bits: after the largest one it is 0 again. -/
def loop (g : Grammar) (t : Table) (limit : UInt64) (trace : Array TraceStep) (number : UInt64)
    (c : Config) : Option (Except Missing ParseResult) :=
  if limit < number then some (.ok ⟨.error (.stepLimit limit.toNat), trace.toList, c.arena⟩)
  else
    match c.turn g t number.toNat with
    | .error e => some (.error e)
    | .ok (.moved step next) => (loop g t limit (trace.push step) (c := next)) (number + 1)
    | .ok (.ended step outcome) => some (.ok ⟨outcome, (trace.push step).toList, c.arena⟩)
    | .ok .stuck => some (.ok ⟨.error .emptyStack, (markLast trace .emptyStack).toList, c.arena⟩)
partial_fixpoint

/-- Runs the table on a list of tokens under a limit of 64 bits. There is no result if the run never
ends. -/
def execute (g : Grammar) (t : Table) (limit : UInt64) (tokens : List Symbol) :
    Option (Except Missing ParseResult) :=
  loop g t limit #[] 1 (.initial tokens)

end Engine

/-! ### Traces in text -/

/-- A step as a line divided by tabs, the stack from the bottom. -/
def TraceStep.toText (s : TraceStep) : Text :=
  let spaced (words : List Text) : Text := words.flatMap (· ++ Text.ofString " ")
  Text.line (Text.ofNat s.number ++ "\t" ++ spaced (s.stack.reverse.map Cell.toText) ++ "\t" ++
    spaced s.input ++ "\t" ++ (s.action.getD .error).toText ++ "\t" ++ s.message)

/-- A trace under its heading. -/
def traceListing (trace : List TraceStep) : Text :=
  "\n--Parse Trace--\n" ++ Text.line "Step\tStack\tInput\tAction\tMessage" ++
    trace.flatMap TraceStep.toText ++ "\n"

end ShiftReduce
