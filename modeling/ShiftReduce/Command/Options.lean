import ShiftReduce.Generation

/-!
# The command line

Arguments are read from left to right, and a later switch overrides an earlier one. An argument of
at least two bytes that starts with `--` is a long switch. One that starts with `-` is a group of
letters, each a switch of its own. Any other argument is the grammar file, of which there is one.

The letters `o`, `p` and `k` ask for a value, which is the next argument, whatever it looks like.
The request is served after the group, so the last such letter of a group decides what the value is.

`Reading` is the state of the reader. A switch that prints the usage or the version ends the
reading, and so does an error. What was set before stays set.
-/

namespace ShiftReduce

/-! ### What can be set -/

/-- The switches of the command line. -/
structure Options where
  mode : Mode
  verbose : Bool
  graphviz : Bool
  /-- Whether the name of the output files was given. -/
  outputNamed : Bool
  /-- What the listing logs of the generation. -/
  log : LogOptions
  showStates : Bool
  /-- Whether the trace and the tree of a parse are printed. -/
  showTrace : Bool
  /-- How many steps a parse may take. -/
  maxSteps : UInt64
  deriving DecidableEq, Repr

/-- The switches before the first argument. -/
def Options.initial : Options :=
  ⟨.lr0, false, false, false, .none, true, false, 1000⟩

/-- The names of the output files. -/
structure OutputNames where
  listing : Text
  automaton : Text
  tree : Text
  deriving DecidableEq, Repr

/-- The output files with a common stem. -/
def OutputNames.ofStem (stem : Text) : OutputNames :=
  ⟨stem ++ ".output", stem ++ ".gviz", stem ++ ".tree.gviz"⟩

/-! ### Usage -/

def usage : Text :=
  "Usage: lrgen [-DghkLopStvV] inputfile\n" ++
    "  -L, --lr0                  build LR(0) tables (default)\n" ++
    "  -S, --slr1                 build SLR(1) tables\n" ++
    "  -p STR, --parse==STR       parse STR with the tables\n" ++
    "  -t, --trace                print the parse trace and tree\n" ++
    "  -k N, --max-steps==N       step limit of the parser\n" ++
    "  -o NAME, --output-file==NAME\n" ++
    "                             NAME.output, NAME.gviz, NAME.tree.gviz\n" ++
    "  -v, --verbose              write the listing to y.output\n" ++
    "  -g, --graphviz             write y.gviz (and y.tree.gviz)\n" ++
    "  -Di                        debug listings, i = 0 ~ 6\n" ++
    "  -h, --help                 this message\n" ++
    "  -V, --version              version information\n" ++
    "inputfile may be - for the standard input."

def version : Text :=
  "lrgen version 1.0.0\nLR(0) and SLR(1) parsing table generator."

/-- A switch that takes the next argument as its value. -/
inductive ValueSwitch where
  /-- The stem of the output files. -/
  | outputName
  | parseInput
  /-- The step limit. -/
  | stepLimit
  deriving DecidableEq, Repr

/-- What is wrong with a command line. -/
inductive UsageError where
  /-- There is no grammar file. -/
  | noGrammarFile
  /-- A switch has no value. An empty stem of the output files counts as none. -/
  | noValue (switch : ValueSwitch)
  /-- A step limit is not a positive number of 64 bits. -/
  | badStepLimit (value : Text)
  /-- A listing is not one of 0 to 6. -/
  | badListing
  /-- A letter is not a switch. -/
  | unknownLetter (letter : UInt8)
  /-- A long switch does not exist. -/
  | unknownSwitch (switch : Text)
  /-- There is a second grammar file. -/
  | unexpectedArgument (argument : Text)
  deriving DecidableEq, Repr

namespace UsageError

def summary : UsageError → Text
  | .noGrammarFile => "no input file"
  | .noValue .outputName => "output file name is not specified by -o or --output-file=="
  | .noValue .parseInput => "string to parse is not specified by -p or --parse=="
  | .noValue .stepLimit => "step limit is not specified by -k or --max-steps=="
  | .badStepLimit value => "invalid step limit '" ++ value ++ "': expected a positive integer"
  | .badListing => "unknown parameter to switch -D. choices are -Di (i = 0 ~ 6)."
  | .unknownLetter letter => "unknown switch -" ++ [letter]
  | .unknownSwitch switch => "unknown switch: " ++ switch
  | .unexpectedArgument argument => "unexpected argument " ++ argument

/-- The error with the usage message. -/
def message (e : UsageError) : Text :=
  e.summary ++ "\n" ++ usage

end UsageError

/-! ### Reading -/

/-- Whether the reading goes on. -/
inductive ReadingStatus where
  | reading
  /-- The usage or the version was printed, and nothing else is to be done. -/
  | done
  | failed (error : UsageError)
  deriving DecidableEq, Repr

/-- What has been read of a command line. -/
structure Reading where
  options : Options
  files : OutputNames
  /-- The place of the grammar file among the arguments; 0 is the program's own name. -/
  grammarIndex : Option Nat
  parseInput : Option Text
  /-- The switch that waits for its value. -/
  pending : Option ValueSwitch
  printed : Text
  status : ReadingStatus
  deriving DecidableEq, Repr

namespace Reading

/-- The state before the first argument. -/
def initial : Reading :=
  ⟨.initial, .ofStem "y", none, none, none, [], .reading⟩

def fail (r : Reading) (e : UsageError) : Reading :=
  { r with status := .failed e }

/-- Prints a message and ends. -/
def finish (r : Reading) (message : Text) : Reading :=
  { r with printed := r.printed ++ message.line, status := .done }

def set (r : Reading) (f : Options → Options) : Reading :=
  { r with options := f r.options }

/-! ### Values -/

def takeOutputName (r : Reading) (stem : Text) : Reading :=
  if stem = [] then r.fail (.noValue .outputName) else { r with files := .ofStem stem }

def takeStepLimit (r : Reading) (value : Text) : Reading :=
  match value.toNat? with
  | some limit =>
    if 0 < limit && limit < UInt64.size then r.set ({ · with maxSteps := .ofNat limit })
    else r.fail (.badStepLimit value)
  | none => r.fail (.badStepLimit value)

/-- Takes the value that a switch asked for. -/
def takeValue (r : Reading) (switch : ValueSwitch) (value : Text) : Reading :=
  match switch with
  | .outputName => r.takeOutputName value
  | .parseInput => { r with parseInput := some value }
  | .stepLimit => r.takeStepLimit value

/-! ### Letters -/

/-- The listing that the bytes after the letter `D` name: a number from 0 to 6, which may have
leading zeros, or a minus sign if it is zero. -/
def listingNumber? (rest : Text) : Option Nat :=
  let (negative, digits) := match rest with
    | 45 :: digits => (true, digits)
    | digits => (false, digits)
  match Text.toNat? (digits.takeWhile Text.isDigit) with
  | some n => if n ≤ 6 && (n == 0 || !negative) then some n else none
  | none => none

/-- Turns a listing on. -/
def addListing (o : Options) (number : Nat) : Options :=
  match number with
  | 0 => { o with log := ⟨true, true, true, true, true⟩, showStates := true }
  | 1 => { o with log := { o.log with grammar := true } }
  | 2 => { o with log := { o.log with table := true } }
  | 3 => { o with showStates := false }
  | 4 => { o with log := { o.log with lookahead := true } }
  | 5 => { o with log := { o.log with construction := true } }
  | _ => { o with log := { o.log with stateIndex := true } }

/-- Reads the number of a listing, which also asks for the listing to be written. -/
def readListing (r : Reading) (rest : Text) : Reading :=
  match listingNumber? rest with
  | some number => r.set fun o => { addListing o number with verbose := true }
  | none => r.fail .badListing

/-- Reads a letter of a group, where `rest` follows it. Digits mean nothing by themselves. -/
def readLetter (r : Reading) (letter : UInt8) (rest : Text) : Reading :=
  match Char.ofUInt8 letter with
  | 'g' => r.set ({ · with graphviz := true })
  | 'h' | '?' => r.finish usage
  | 'k' => { r with pending := some .stepLimit }
  | 'L' => r.set ({ · with mode := .lr0 })
  | 'o' =>
    { r with options := { r.options with outputNamed := true }, pending := some .outputName }
  | 'p' => { r with pending := some .parseInput }
  | 'S' => r.set ({ · with mode := .slr1 })
  | 't' => r.set ({ · with showTrace := true })
  | 'v' => r.set ({ · with verbose := true })
  | 'V' => r.finish version
  | 'D' => r.readListing rest
  | _ => if Text.isDigit letter then r else r.fail (.unknownLetter letter)

/-- Reads a group of letters, until one of them ends the reading. -/
def readLetters (r : Reading) : Text → Reading
  | [] => r
  | letter :: rest =>
    let next := r.readLetter letter rest
    if next.status = .reading then readLetters next rest else next

/-! ### Arguments -/

/-- Reads a long switch that carries a value after two equals signs. -/
def readValueSwitch (r : Reading) (argument : Text) : Reading :=
  match Text.after? "--output-file==" argument with
  | some stem => (r.set ({ · with outputNamed := true })).takeOutputName stem
  | none =>
    match Text.after? "--parse==" argument with
    | some input => { r with parseInput := some input }
    | none =>
      match Text.after? "--max-steps==" argument with
      | some limit => r.takeStepLimit limit
      | none => r.fail (.unknownSwitch argument)

def readLong (r : Reading) (argument : Text) : Reading :=
  if argument = ("--lr0" : Text) then r.set ({ · with mode := .lr0 })
  else if argument = ("--slr1" : Text) then r.set ({ · with mode := .slr1 })
  else if argument = ("--graphviz" : Text) then r.set ({ · with graphviz := true })
  else if argument = ("--help" : Text) then r.finish usage
  else if argument = ("--trace" : Text) then r.set ({ · with showTrace := true })
  else if argument = ("--verbose" : Text) then r.set ({ · with verbose := true })
  else if argument = ("--version" : Text) then r.finish version
  else r.readValueSwitch argument

/-- Reads an argument that no switch waits for. -/
def readFree (r : Reading) (index : Nat) (argument : Text) : Reading :=
  match argument with
  | 45 :: 45 :: _ => r.readLong argument
  | 45 :: letter :: letters => r.readLetters (letter :: letters)
  | _ =>
    if r.grammarIndex.isNone then { r with grammarIndex := some index }
    else r.fail (.unexpectedArgument argument)

/-- Reads the argument at a place. -/
def readArgument (r : Reading) (index : Nat) (argument : Text) : Reading :=
  match r.pending with
  | some switch => { r with pending := none }.takeValue switch argument
  | none => r.readFree index argument

/-- Reads the arguments from a place on, until one of them ends the reading. -/
def readArguments (r : Reading) (index : Nat) : List Text → Reading
  | [] => r
  | argument :: rest =>
    let next := r.readArgument index argument
    if next.status = .reading then readArguments next (index + 1) rest else next

/-- Checks that nothing is wanting at the end. -/
def close (r : Reading) : Reading :=
  if r.status = .reading then
    match r.pending with
    | some switch => r.fail (.noValue switch)
    | none => if r.grammarIndex.isNone then r.fail .noGrammarFile else r
  else r

/-- Reads the arguments after the program's own name. -/
def ofArguments (arguments : List Text) : Reading :=
  (initial.readArguments 1 arguments).close

end Reading

end ShiftReduce
