import ShiftReduce.Command.Host
import ShiftReduce.Command.Options
import ShiftReduce.Drawing
import ShiftReduce.Generation.Listing
import ShiftReduce.Grammar.Source
import ShiftReduce.Request

/-!
# The command

The command reads a grammar, generates its tables and, if asked, parses an input with them. It
writes up to three files: a listing, a drawing of the automaton, and a drawing of the parse tree.
The listing is created before the grammar is read, so a failure leaves its heading behind.

The exit status is 0 for success, 1 after an error, 2 if the input was not accepted, and 3 if the
table has conflicts and an input was to be parsed. There is none if parsing the input never ends.
-/

namespace ShiftReduce

/-- Why the command stopped. -/
inductive CommandError where
  /-- The command line is wrong. -/
  | usage (error : UsageError)
  /-- A file cannot be opened. -/
  | cannotOpen (file : Text)
  /-- The grammar file does not hold a grammar. -/
  | grammar (error : GrammarError)
  /-- A reference led nowhere. -/
  | missing (what : Missing)
  deriving DecidableEq, Repr

def CommandError.message : CommandError → Text
  | .usage e => e.message
  | .cannotOpen file => "cannot open file " ++ file
  | .grammar e => e.message
  | .missing what => what.message?.getD []

namespace Command

variable {m : Type → Type} [Monad m]

/-! ### Single files -/

def create (host : Host m) (file : Text) : ExceptT CommandError m Unit := do
  if !(← host.create file) then throw (.cannotOpen file)

/-- Creates a file with the given content. -/
def write (host : Host m) (file content : Text) : ExceptT CommandError m Unit := do
  create host file
  host.append file content

/-- The content of the grammar file, or the standard input for a hyphen. -/
def readGrammarText (host : Host m) (file : Text) : ExceptT CommandError m Text := do
  if file = ("-" : Text) then host.input
  else
    match ← host.read file with
    | some content => return content
    | none => throw (.cannotOpen file)

/-- What the listing starts with. -/
def heading (file : Text) : Text :=
  "/* y.output. Generated by lrgen. */\n" ++ "/* Input file: " ++ file ++ " */\n"

/-! ### Generating and parsing -/

/-- A check of the grammar as a step of the command. -/
def grammarStep {α : Type} (result : Except GrammarError α) : ExceptT CommandError m α :=
  ExceptT.mk (pure (result.mapError .grammar))

/-- A look-up as a step of the command. -/
def lookup {α : Type} (result : Except Missing α) : ExceptT CommandError m α :=
  ExceptT.mk (pure (result.mapError .missing))

/-- Reads the grammar and generates its tables. If the listing is wanted, it holds the heading and
the log before anything else can fail. -/
def generate (host : Host m) (options : Options) (listing grammarFile : Text) :
    ExceptT CommandError m Generation := do
  if options.verbose then write host listing (heading grammarFile)
  let g ← grammarStep (Grammar.read (← readGrammarText host grammarFile))
  let (gen, log) ← lookup (Generation.ofGrammar g options.mode options.log)
  if options.verbose then
    host.append listing log
    host.append listing (← lookup (gen.listing options.showStates))
  return gen

/-- Reports the conflicts of the table. -/
def reportConflicts (host : Host m) (gen : Generation) (grammarFile : Text) :
    ExceptT CommandError m Unit := do
  host.out (gen.table.conflictSummary grammarFile)
  if !gen.isValid then
    host.err (Text.line ("warning: " ++ grammarFile ++ ": grammar is not " ++ gen.mode.toText))

/-- The exit status after an answer. -/
def statusOf (r : Response) : UInt32 :=
  if r.rejected then 3 else if r.accepted then 0 else 2

/-- Parses an input and writes the answer. The result is the exit status. -/
def parse (host : Host m) (gen : Generation) (options : Options) (treeFile input : Text) :
    ExceptT CommandError m (Option UInt32) := do
  match Response.ofInput gen options.maxSteps input with
  | none => return none
  | some answer =>
    let response ← lookup answer
    host.out (← lookup (response.toText gen.grammar options.showTrace))
    match response.root? with
    | some (arena, root) =>
      if options.graphviz then write host treeFile (← lookup (Drawing.tree arena root))
    | none => pure ()
    return some (statusOf response)

/-- Does what the command line asks for. The result is the exit status. -/
def execute (host : Host m) (r : Reading) (grammarFile : Text) :
    ExceptT CommandError m (Option UInt32) := do
  let gen ← generate host r.options r.files.listing grammarFile
  reportConflicts host gen grammarFile
  if r.options.graphviz then
    write host r.files.automaton (← lookup (Drawing.automaton gen))
  match r.parseInput with
  | some input => parse host gen r.options r.files.tree input
  | none => return some 0

/-! ### The whole command -/

/-- Reads the command line, the arguments after the program's own name, and does what it asks
for. -/
def attempt (host : Host m) (arguments : List Text) :
    ExceptT CommandError m (Option UInt32) := do
  let r := Reading.ofArguments arguments
  host.out r.printed
  match r.status with
  | .failed e => throw (.usage e)
  | .done => return some 0
  | .reading => execute host r (arguments.getD (r.grammarIndex.getD 0 - 1) [])

/-- Runs the command. An error is printed, up to a NUL byte, and gives status 1. -/
def run (host : Host m) (arguments : List Text) : m (Option UInt32) := do
  match ← (attempt host arguments).run with
  | .ok status => return status
  | .error e =>
    host.err e.message.upToNul.line
    return some 1

end Command

end ShiftReduce
