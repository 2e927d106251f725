import ShiftReduce.Request
import ShiftReduce.Proofs.Completeness
import ShiftReduce.Proofs.Engine.Counter
import ShiftReduce.Proofs.Token

/-!
# ShiftReduce.Proofs.Request

**How a request ends.** The answer to a request shows one of four endings: the table is refused, the
input cannot be read, the engine fails, or it accepts (`Response.Ending`). What each ending shows is
collected in a structure of its own, so that nothing of one stage is left in the answer of another:
an answer without a run of the engine has no tokens, no steps, no failure and no tree
(`Response.Unparsed`).

The largest count of 64 bits limits nothing. With it as the limit, and with no other, a request has
no answer where the run of the engine is endless (`Generation.ofInput_eq_none_iff`). There are such
requests (`Generation.exists_ofInput_eq_none`).

`Generation.request_outcome` adds that an input of tokens with single spaces between them is
accepted, given enough steps, if and only if it is a sentence.
-/

namespace ShiftReduce

namespace Response

/-! ### Endings -/

/-- The four ways in which a request ends. -/
inductive Ending where
  | refused
  | unreadable
  | failed
  | accepted
  deriving DecidableEq, Repr

/-- The engine did not run. -/
structure Unparsed (r : Response) : Prop where
  accepted_eq : r.accepted = false
  tokens_eq : r.tokens = []
  trace_eq : r.trace = []
  failure?_eq : r.failure? = none
  root?_eq : r.root? = none
  treeText?_eq : r.treeText? = .ok none

/-- The table was refused for its conflicts. -/
structure Refused (r : Response) (t : Table) : Prop extends r.Unparsed where
  rejected_eq : r.rejected = true
  verdict_eq : r.verdict =
    .conflicts (t.conflictsOf .shiftReduce) (t.conflictsOf .reduceReduce)

/-- A piece of the input is not a terminal. -/
structure Unreadable (r : Response) : Prop extends r.Unparsed where
  rejected_eq : r.rejected = false
  errorText_ne : r.errorText ≠ []

/-- The engine failed on the tokens. -/
structure Failed (r : Response) (tokens : List Symbol) : Prop where
  rejected_eq : r.rejected = false
  accepted_eq : r.accepted = false
  tokens_eq : r.tokens = tokens
  failure?_eq : ∃ failure, r.failure? = some failure ∧ r.errorText = failure.message
  root?_eq : r.root? = none
  tree?_eq : r.tree? = .ok none
  treeText?_eq : r.treeText? = .ok none

/-- The engine accepted the tokens. -/
structure Accepted (r : Response) (tokens : List Symbol) : Prop where
  rejected_eq : r.rejected = false
  accepted_eq : r.accepted = true
  tokens_eq : r.tokens = tokens
  errorText_eq : r.errorText = []
  failure?_eq : r.failure? = none
  /-- The tree of the answer is the one of its root, and so is the tree in brackets. -/
  tree?_eq : ∃ arena root tree, r.root? = some (arena, root) ∧ arena.tree root = .ok tree ∧
    r.tree? = .ok (some tree) ∧ r.treeText? = .ok (some tree.toText)

/-- The answer to an input shows the ending and nothing of the others. -/
def Ends (r : Response) (gen : Generation) (input : Text) : Ending → Prop
  | .refused => r.Refused gen.table
  | .unreadable => r.Unreadable
  | .failed => ∃ tokens, Token.tokenize gen.grammar.terminals input = .ok tokens ∧ r.Failed tokens
  | .accepted =>
      ∃ tokens, Token.tokenize gen.grammar.terminals input = .ok tokens ∧ r.Accepted tokens

section Stages

variable {gen : Generation} {limit : UInt64} {input : Text}

theorem ofInput_of_conflicts (h : gen.isValid = false) :
    ofInput gen limit input = some (.ok ⟨gen.mode,
      .conflicts (gen.table.conflictsOf .shiftReduce) (gen.table.conflictsOf .reduceReduce)⟩) := by
  simp [ofInput, h]

theorem ofInput_of_lexError (hvalid : gen.isValid = true) {e : LexError}
    (h : Token.tokenize gen.grammar.terminals input = .error e) :
    ofInput gen limit input = some (.ok ⟨gen.mode, .unreadable e⟩) := by
  simp [ofInput, hvalid, h]

theorem ofInput_of_tokens (hvalid : gen.isValid = true) {tokens : List Symbol}
    (h : Token.tokenize gen.grammar.terminals input = .ok tokens) :
    ofInput gen limit input = (Engine.execute gen.grammar gen.table limit tokens).map fun result =>
      result.map fun result => ⟨gen.mode, .parsed tokens result⟩ := by
  simp [ofInput, hvalid, h]

/-- The complaint about a token is not empty, though it may lose its end to a NUL. -/
theorem errorText_unreadable_ne (mode : Mode) (e : LexError) :
    (Response.mk mode (.unreadable e)).errorText ≠ [] := by
  obtain ⟨rest, hrest⟩ : ∃ rest, e.message = 85 :: rest := ⟨_, rfl⟩
  simp [errorText, hrest, Text.upToNul]

theorem refused_conflicts (mode : Mode) (t : Table) : Refused
    ⟨mode, .conflicts (t.conflictsOf .shiftReduce) (t.conflictsOf .reduceReduce)⟩ t :=
  ⟨⟨rfl, rfl, rfl, rfl, rfl, rfl⟩, rfl, rfl⟩

theorem unreadable_lexError (mode : Mode) (e : LexError) : Unreadable ⟨mode, .unreadable e⟩ :=
  ⟨⟨rfl, rfl, rfl, rfl, rfl, rfl⟩, rfl, errorText_unreadable_ne mode e⟩

theorem failed_parsed (mode : Mode) (tokens : List Symbol) {result : ParseResult}
    {failure : Failure} (h : result.outcome = .error failure) :
    Failed ⟨mode, .parsed tokens result⟩ tokens := by
  have hroot : result.root? = none := by rw [ParseResult.root?, h]; rfl
  have hfailure : result.failure? = some failure := by rw [ParseResult.failure?, h]
  have htree : tree? ⟨mode, .parsed tokens result⟩ = .ok none := by
    simp [tree?, root?, result?, hroot]
  refine ⟨rfl, ?_, rfl, ⟨failure, hfailure, ?_⟩, ?_, htree, ?_⟩
  · simp [accepted, result?, ParseResult.accepted, h, Except.isOk, Except.toBool]
  · simp [errorText, hfailure]
  · simp [root?, result?, hroot]
  · rw [treeText?, htree]
    rfl

theorem accepted_parsed (mode : Mode) (tokens : List Symbol) {result : ParseResult} {root : NodeId}
    (h : result.outcome = .ok root) {tree : Tree} (htree : result.arena.tree root = .ok tree) :
    Accepted ⟨mode, .parsed tokens result⟩ tokens := by
  have hroot : result.root? = some root := by rw [ParseResult.root?, h]; rfl
  have hfailure : result.failure? = none := by rw [ParseResult.failure?, h]
  have htree? : tree? ⟨mode, .parsed tokens result⟩ = .ok (some tree) := by
    simp [tree?, root?, result?, hroot, htree]
  refine ⟨rfl, ?_, rfl, ?_, hfailure, result.arena, root, tree, ?_, htree, htree?, ?_⟩
  · simp [accepted, result?, ParseResult.accepted, h, Except.isOk, Except.toBool]
  · simp [errorText, hfailure]
  · simp [root?, result?, hroot]
  · rw [treeText?, htree?]
    rfl

end Stages

end Response

namespace Generation

/-- The engine runs on the tokens of the input, and no limit is large enough for it. -/
def Endless (gen : Generation) (input : Text) : Prop :=
  gen.isValid = true ∧ ∃ tokens, Token.tokenize gen.grammar.terminals input = .ok tokens ∧
    Engine.Endless gen.grammar gen.table tokens

/-- A request has no answer if and only if its limit is none and the run is endless. -/
theorem ofInput_eq_none_iff (gen : Generation) (limit : UInt64) (input : Text) :
    Response.ofInput gen limit input = none ↔ limit = Engine.maxCount ∧ gen.Endless input := by
  unfold Endless
  cases hvalid : gen.isValid with
  | false => simp [Response.ofInput_of_conflicts hvalid]
  | true =>
      cases htokens : Token.tokenize gen.grammar.terminals input with
      | error e => simp [Response.ofInput_of_lexError hvalid htokens]
      | ok tokens =>
          rw [Response.ofInput_of_tokens hvalid htokens, Option.map_eq_none_iff,
            Engine.execute_eq_none_iff]
          simp

/-! ### A request without an answer -/

namespace Unproductive

/-- The productions `S -> A S b` and `A -> ε`. Nothing is derived from `S`. -/
def grammar : Grammar :=
  ⟨[⟨"S", ["A", "S", "b"]⟩, ⟨"A", []⟩], by simp, by decide⟩

def tokens : List Symbol :=
  ["b", Symbol.endMark]

/-- The token `b` waits, while the stack is empty or has an `A` on top. -/
structure Waits (s : Snapshot) : Prop where
  top_mem : Frame.top s.frames ∈ [0, 2]
  input_eq : s.input = tokens

/-- What the table says about `b` and about `A` in these states. -/
theorem cells {gen : Generation} {text : Text}
    (h : ofGrammar grammar .lr0 .none = .ok (gen, text)) :
    gen.isValid = true ∧ ∀ state ∈ [0, 2],
      gen.table.action? state "b" = some (.reduce 2) ∧ gen.table.goto? state "A" = some 2 := by
  have hcells : ∀ made ∈ (ofGrammar grammar .lr0 .none).toOption,
      made.1.isValid = true ∧ ∀ state ∈ [0, 2],
        made.1.table.action? state "b" = some (.reduce 2) ∧
        made.1.table.goto? state "A" = some 2 := by
    decide +kernel
  exact hcells (gen, text) (by rw [h]; rfl)

/-- Another `A` goes on the stack, and `b` still waits. -/
theorem Waits.moves {gen : Generation} {text : Text}
    (h : ofGrammar grammar .lr0 .none = .ok (gen, text)) {s : Snapshot} (hs : Waits s) :
    ∃ next, s.step grammar gen.table = .moves next ∧ Waits next := by
  obtain ⟨fs, input⟩ := s
  obtain ⟨htop, rfl⟩ := hs
  obtain ⟨haction, hgoto⟩ := (cells h).2 _ htop
  show ∃ next, Snapshot.step grammar gen.table ⟨[] ++ fs, tokens⟩ = .moves next ∧ Waits next
  exact ⟨_, Snapshot.step_reduce haction rfl rfl hgoto, by simp [Frame.top], rfl⟩

end Unproductive

/-- The engine reduces to `A` forever before it reads `b`. -/
theorem exists_ofInput_eq_none :
    ∃ gen text, ofGrammar Unproductive.grammar .lr0 .none = .ok (gen, text) ∧
      Response.ofInput gen Engine.maxCount "b" = none := by
  obtain ⟨gen, text, hgen, hdescribes⟩ := exists_ofGrammar Unproductive.grammar .lr0 .none
  have htokens : Token.tokenize Unproductive.grammar.terminals "b" = .ok Unproductive.tokens := by
    decide +kernel
  have hendless : Engine.Endless Unproductive.grammar gen.table Unproductive.tokens :=
    Engine.endless_of_moves (P := Unproductive.Waits) ⟨by decide, rfl⟩ fun _ hs => hs.moves hgen
  refine ⟨gen, text, hgen, (gen.ofInput_eq_none_iff _ _).mpr ⟨rfl, ?_⟩⟩
  rw [← hdescribes.grammar_eq] at htokens hendless
  exact ⟨(Unproductive.cells hgen).1, _, htokens, hendless⟩

/-! ### The ending of an answer -/

variable {gen : Generation} {g : Grammar} {mode : Mode}

/-- What the stages do decides the ending of an answer. -/
theorem Describes.ends_ofInput (h : gen.Describes g mode) {limit : UInt64} {input : Text}
    {answer : Except Missing Response} (hanswer : Response.ofInput gen limit input = some answer) :
    ∃ r e, answer = .ok r ∧ r.Ends gen input e ∧
      (e = .refused ↔ gen.isValid = false) ∧
      (e = .unreadable ↔
        gen.isValid = true ∧ ∃ err, Token.tokenize gen.grammar.terminals input = .error err) := by
  cases hvalid : gen.isValid with
  | false =>
      rw [Response.ofInput_of_conflicts hvalid] at hanswer
      exact ⟨_, .refused, (Option.some.inj hanswer).symm,
        Response.refused_conflicts gen.mode gen.table, by simp, by simp⟩
  | true =>
      cases htokens : Token.tokenize gen.grammar.terminals input with
      | error err =>
          rw [Response.ofInput_of_lexError hvalid htokens] at hanswer
          exact ⟨_, .unreadable, (Option.some.inj hanswer).symm,
            Response.unreadable_lexError gen.mode err, by simp, by simp⟩
      | ok tokens =>
          rw [Response.ofInput_of_tokens hvalid htokens] at hanswer
          obtain ⟨parsed, hparsed, rfl⟩ := Option.map_eq_some_iff.mp hanswer
          obtain ⟨result, bound, rfl, hends⟩ := Engine.execute_ends hparsed
          rw [h.grammar_eq] at hends
          cases houtcome : result.outcome with
          | error failure =>
              exact ⟨_, .failed, rfl, ⟨tokens, htokens, Response.failed_parsed _ _ houtcome⟩,
                by simp, by simp⟩
          | ok root =>
              obtain ⟨w, rest, tree, -, -, htree, -⟩ := h.parses_of_ends hends houtcome
              have haccepted := Response.accepted_parsed gen.mode tokens houtcome htree
              exact ⟨_, .accepted, rfl, ⟨tokens, htokens, haccepted⟩, by simp, by simp⟩

end Generation

end ShiftReduce
