import ShiftReduce.Proofs.Command.Options
import ShiftReduce.Proofs.Command.Steps
import ShiftReduce.Proofs.Listing
import ShiftReduce.Proofs.Request

/-!
# ShiftReduce.Proofs.Command

**How a run of the command ends, and which files it writes.** `Command.Ends` lists the endings of a
run: the errors that it can meet, in the order in which it can meet them, and its successes.
`Command.Written` lists the files that it writes. Each function of the command has a relation of its
own that says how it ends (`Generates`, `Executes`, `Ends`), with two lemmas: a run ends as the
relation says, and the relation always holds of some result. So a run ends in one way, and the
relation says in which (`attempt_eq_iff`).

No error comes from a reference that leads nowhere, and none from the input: whatever was generated
or parsed can be written out. A run has no exit status where it parses an input forever, which takes
a step limit that is none (`Command.Unending`). The files with the three names are different,
wherever their common stem leads.
-/

namespace ShiftReduce

/-- An answer has a root if its input was accepted. -/
theorem Response.accepted_eq_isSome (r : Response) : r.accepted = r.root?.isSome := by
  unfold accepted root?
  cases r.result? with
  | none => rfl
  | some result =>
      cases houtcome : result.outcome <;>
        simp [ParseResult.accepted, ParseResult.root?, houtcome, Except.isOk, Except.toBool,
          Except.toOption]

namespace Command

/-! ### Endings -/

/-- The command line asks for the grammar in a file. -/
structure Asks (arguments : List Text) (r : Reading) (file : Text) : Prop where
  reading_eq : Reading.ofArguments arguments = r
  status_eq : r.status = .reading
  argument : ∃ i, r.grammarIndex = some (i + 1) ∧ arguments[i]? = some file

/-- The files when the grammar is read. The listing was started, if it is wanted. -/
def started (fs : FileStore) (r : Reading) (file : Text) : Option FileStore :=
  if r.options.verbose then fs.write? r.files.listing (heading file) else some fs

section Endings

variable (fs : FileStore) (stdin : Text) (r : Reading) (file : Text)

/-- How generating ends. -/
inductive Generates : Except CommandError Generation → Prop
  | noListing (h : started fs r file = none) :
      Generates (.error (.cannotOpen r.files.listing))
  | noSource {fs' : FileStore} (hfs : started fs r file = some fs')
      (h : grammarText fs' stdin file = none) : Generates (.error (.cannotOpen file))
  | noGrammar {fs' : FileStore} {text : Text} {e : GrammarError}
      (hfs : started fs r file = some fs') (htext : grammarText fs' stdin file = some text)
      (h : Grammar.read text = .error e) : Generates (.error (.grammar e))
  | generated {fs' : FileStore} {text : Text} {g : Grammar} {gen : Generation} {log : Text}
      (hfs : started fs r file = some fs') (htext : grammarText fs' stdin file = some text)
      (hread : Grammar.read text = .ok g)
      (h : Generation.ofGrammar g r.options.mode r.options.log = .ok (gen, log)) :
      Generates (.ok gen)

/-- The input of the command line has an answer. -/
structure Answers (gen : Generation) (response : Response) : Prop where
  generates : Generates fs stdin r file (.ok gen)
  answer : ∃ input, r.parseInput = some input ∧
    Response.ofInput gen r.options.maxSteps input = some (.ok response)

/-- Parsing the input of the command line never ends. -/
structure Unending (gen : Generation) : Prop where
  generates : Generates fs stdin r file (.ok gen)
  /-- The step limit is the largest number, which limits nothing. -/
  maxSteps_eq : r.options.maxSteps = Engine.maxCount
  endless : ∃ input, r.parseInput = some input ∧ gen.Endless input

/-- The automaton can be drawn, if that is wanted. -/
def Draws : Prop :=
  r.options.graphviz = true → fs.create? r.files.automaton ≠ none

/-- How the command ends after its command line was read. -/
inductive Executes : Except CommandError (Option UInt32) → Prop
  | notGenerated {e : CommandError} (h : Generates fs stdin r file (.error e)) : Executes (.error e)
  | noAutomaton {gen : Generation} (hgen : Generates fs stdin r file (.ok gen))
      (hwanted : r.options.graphviz = true) (h : fs.create? r.files.automaton = none) :
      Executes (.error (.cannotOpen r.files.automaton))
  | generated {gen : Generation} (hgen : Generates fs stdin r file (.ok gen)) (hdraws : Draws fs r)
      (h : r.parseInput = none) : Executes (.ok (some 0))
  | unending {gen : Generation} (h : Unending fs stdin r file gen) (hdraws : Draws fs r) :
      Executes (.ok none)
  | noTree {gen : Generation} {response : Response}
      (hanswers : Answers fs stdin r file gen response) (hdraws : Draws fs r)
      (hwanted : r.options.graphviz = true) (haccepted : response.accepted = true)
      (h : fs.create? r.files.tree = none) : Executes (.error (.cannotOpen r.files.tree))
  | answered {gen : Generation} {response : Response}
      (hanswers : Answers fs stdin r file gen response) (hdraws : Draws fs r)
      (htree : r.options.graphviz = true → response.accepted = true →
        fs.create? r.files.tree ≠ none) : Executes (.ok (some (statusOf response)))

/-- The files that the command may write. -/
inductive Written : Text → Prop
  | listing (hwanted : r.options.verbose = true) : Written r.files.listing
  | automaton {gen : Generation} (hgen : Generates fs stdin r file (.ok gen))
      (hwanted : r.options.graphviz = true) : Written r.files.automaton
  | tree {gen : Generation} {response : Response} (hanswers : Answers fs stdin r file gen response)
      (hwanted : r.options.graphviz = true) (haccepted : response.accepted = true) :
      Written r.files.tree

end Endings

/-- How the command ends. -/
inductive Ends (arguments : List Text) (fs : FileStore) (stdin : Text) :
    Except CommandError (Option UInt32) → Prop
  | usage {e : UsageError} (h : (Reading.ofArguments arguments).status = .failed e) :
      Ends arguments fs stdin (.error (.usage e))
  | informed (h : (Reading.ofArguments arguments).status = .done) :
      Ends arguments fs stdin (.ok (some 0))
  | executed {r : Reading} {file : Text} {result : Except CommandError (Option UInt32)}
      (hasks : Asks arguments r file) (h : Executes fs stdin r file result) :
      Ends arguments fs stdin result

/-! ### Generating -/

section Generating

variable {w : World} {r : Reading} {file : Text}

theorem runs_start_none (h : started w.files r file = none) :
    Runs (optional r.options.verbose (write World.host r.files.listing (heading file))) w
      (.error (.cannotOpen r.files.listing)) w := by
  unfold started at h
  cases hverbose : r.options.verbose with
  | true =>
      rw [hverbose, if_pos rfl] at h
      exact (runs_write_none h).optional_true
  | false =>
      rw [hverbose, if_neg Bool.false_ne_true] at h
      cases h

theorem runs_start_some {fs : FileStore} (h : started w.files r file = some fs) :
    Runs (optional r.options.verbose (write World.host r.files.listing (heading file))) w
      (.ok ()) { w with files := fs } ∧ w.files.Touches (Written w.files w.input r file) fs := by
  unfold started at h
  cases hverbose : r.options.verbose with
  | true =>
      rw [hverbose, if_pos rfl] at h
      exact ⟨(runs_write_some h).optional_true, .of_write? (.listing hverbose) h⟩
  | false =>
      rw [hverbose, if_neg Bool.false_ne_true] at h
      cases h
      exact ⟨runs_optional_false, .refl _ _⟩

/-- The log and the listing are added to a file that was started. -/
theorem exists_runs_listing {gen : Generation} (hgen : gen.Complete) (log : Text) (w' : World) :
    ∃ w'', Runs (optional r.options.verbose (do
        World.host.append r.files.listing log
        let text ← lookup (gen.listing r.options.showStates)
        World.host.append r.files.listing text)) w' (.ok ()) w'' ∧
      w'.files.Touches (Written w.files w.input r file) w''.files := by
  cases hverbose : r.options.verbose with
  | true =>
      obtain ⟨text, htext⟩ := hgen.listing_eq_ok r.options.showStates
      exact ⟨_, ((runs_append _ _ _).bind
          ((runs_lookup htext _).bind (runs_append _ _ _))).optional_true,
        (FileStore.Touches.of_append (.listing hverbose) _ _).trans
          (.of_append (.listing hverbose) _ _)⟩
  | false => exact ⟨w', runs_optional_false, .refl _ _⟩

/-- Generating ends as `Generates` says. -/
theorem Generates.runs {result : Except CommandError Generation}
    (h : Generates w.files w.input r file result) :
    ∃ w', Runs (generate World.host r.options r.files.listing file) w result w' ∧
      w.files.Touches (Written w.files w.input r file) w'.files := by
  rw [generate_eq]
  cases h with
  | noListing h => exact ⟨w, (runs_start_none h).bind_error, .refl _ _⟩
  | noSource hfs h =>
      obtain ⟨hstart, htouches⟩ := runs_start_some hfs
      exact ⟨_, hstart.bind (runs_readGrammarText_none h).bind_error, htouches⟩
  | noGrammar hfs htext h =>
      obtain ⟨hstart, htouches⟩ := runs_start_some hfs
      exact ⟨_, hstart.bind ((runs_readGrammarText_some htext).bind
        (runs_grammarStep_error h _).bind_error), htouches⟩
  | generated hfs htext hread h =>
      obtain ⟨hstart, htouches⟩ := runs_start_some hfs
      obtain ⟨w', hlisting, htouches'⟩ :=
        exists_runs_listing (Generation.complete_of_ofGrammar h) _ _
      exact ⟨w', hstart.bind ((runs_readGrammarText_some htext).bind
        ((runs_grammarStep_ok hread _).bind ((runs_lookup h _).bind
          (hlisting.bind (runs_pure _ _))))), htouches.trans htouches'⟩

theorem exists_generates (fs : FileStore) (stdin : Text) (r : Reading) (file : Text) :
    ∃ result, Generates fs stdin r file result := by
  cases hfs : started fs r file with
  | none => exact ⟨_, .noListing hfs⟩
  | some fs' =>
      cases htext : grammarText fs' stdin file with
      | none => exact ⟨_, .noSource hfs htext⟩
      | some text =>
          cases hread : Grammar.read text with
          | error e => exact ⟨_, .noGrammar hfs htext hread⟩
          | ok g =>
              obtain ⟨gen, log, hgen, -⟩ :=
                Generation.exists_ofGrammar g r.options.mode r.options.log
              exact ⟨_, .generated hfs htext hread hgen⟩

/-- What is known of a generation. -/
theorem Generates.describes {fs : FileStore} {stdin : Text} {gen : Generation}
    (h : Generates fs stdin r file (.ok gen)) : gen.Complete ∧
      ∃ g, gen.Describes g r.options.mode := by
  cases h with
  | generated hfs htext hread h =>
      exact ⟨Generation.complete_of_ofGrammar h, _, Generation.describes_of_ofGrammar h⟩

end Generating

/-! ### Drawing and parsing -/

section Executing

variable {w w' : World} {r : Reading} {file : Text} {gen : Generation} {response : Response}

/-- A drawing is written if it is wanted and its file can be created. -/
theorem exists_runs_draw {drawing : Except Missing Text} (h : ∃ text, drawing = .ok text)
    {files : Text → Prop} {wanted : Bool} {name : Text}
    (hcreate : wanted = true → w.files.create? name ≠ none) (hfile : wanted = true → files name) :
    ∃ w', Runs (optional wanted (do
        let text ← lookup drawing
        write World.host name text)) w (.ok ()) w' ∧ w.files.Touches files w'.files := by
  cases wanted with
  | false => exact ⟨w, runs_optional_false, .refl _ _⟩
  | true =>
      obtain ⟨text, htext⟩ := h
      have hwrite : w.files.write? name text ≠ none := fun hnone =>
        hcreate rfl (FileStore.write?_eq_none.mp hnone)
      obtain ⟨fs, hfs⟩ := Option.ne_none_iff_exists'.mp hwrite
      exact ⟨_, ((runs_lookup htext w).bind (runs_write_some hfs)).optional_true,
        .of_write? (hfile rfl) hfs⟩

theorem runs_draw_none {drawing : Except Missing Text} (h : ∃ text, drawing = .ok text)
    {name : Text} (hcreate : w.files.create? name = none) :
    Runs (optional true (do
      let text ← lookup drawing
      write World.host name text)) w (.error (.cannotOpen name)) w := by
  obtain ⟨text, htext⟩ := h
  exact ((runs_lookup htext w).bind
    (runs_write_none (FileStore.write?_eq_none.mpr hcreate))).optional_true

/-- The tables were generated and their conflicts reported. -/
theorem exists_runs_reported (hgen : Generates w.files w.input r file (.ok gen)) :
    ∃ w', w.files.Touches (Written w.files w.input r file) w'.files ∧
      ∀ {α : Type} {rest : Generation → ExceptT CommandError (StateM World) α}
        {result : Except CommandError α} {w'' : World}, Runs (rest gen) w' result w'' →
        Runs (do
          let gen ← generate World.host r.options r.files.listing file
          reportConflicts World.host gen file
          rest gen) w result w'' := by
  obtain ⟨w₁, hgenerate, htouches⟩ := hgen.runs
  obtain ⟨w₂, hreport, hfiles⟩ := runs_reportConflicts gen file w₁
  exact ⟨w₂, hfiles ▸ htouches, fun hrest => hgenerate.bind (hreport.bind hrest)⟩

/-- The automaton was drawn as well, if that is wanted. -/
theorem exists_runs_drawn (hgen : Generates w.files w.input r file (.ok gen))
    (hdraws : Draws w.files r) :
    ∃ w', w.files.Touches (Written w.files w.input r file) w'.files ∧
      ∀ {result : Except CommandError (Option UInt32)} {w'' : World},
        Runs (match r.parseInput with
          | some input => parse World.host gen r.options r.files.tree input
          | none => pure (some 0)) w' result w'' →
        Runs (execute World.host r file) w result w'' := by
  obtain ⟨w₁, htouches, hreported⟩ := exists_runs_reported hgen
  obtain ⟨w₂, hdraw, htouches'⟩ := exists_runs_draw hgen.describes.1.drawing_eq_ok
    (fun hwanted => mt (htouches.create?_eq_none _).mp (hdraws hwanted))
    (fun hwanted => Written.automaton hgen hwanted)
  refine ⟨w₂, htouches.trans htouches', fun hrest => ?_⟩
  rw [execute_eq]
  exact hreported (hdraw.bind hrest)

theorem Answers.rooted (h : Answers w.files w.input r file gen response) :
    response.Rooted gen.grammar := by
  obtain ⟨-, g, hdescribes⟩ := h.generates.describes
  obtain ⟨input, -, hanswer⟩ := h.answer
  rw [hdescribes.grammar_eq]
  exact hdescribes.rooted_ofInput hanswer

/-- An answer is written, with the drawing of its tree as a step of its own. -/
theorem Answers.exists_runs_parse (h : Answers w.files w.input r file gen response) (w' : World) :
    ∃ w₁ : World, w₁.files = w'.files ∧ ∀ {result : Except CommandError Unit} {w₂ : World},
      Runs (optional r.options.graphviz (drawTree r.files.tree response.root?)) w₁ result w₂ →
      Runs (match r.parseInput with
        | some input => parse World.host gen r.options r.files.tree input
        | none => pure (some 0)) w' (result.map fun _ => some (statusOf response)) w₂ := by
  obtain ⟨input, hinput, hanswer⟩ := h.answer
  obtain ⟨text, htext⟩ := h.rooted.toText_eq_ok r.options.showTrace
  refine ⟨{ w' with out := w'.out ++ text }, rfl, fun {result w₂} hdraw => ?_⟩
  rw [hinput]
  show Runs (parse World.host gen r.options r.files.tree input) w' _ w₂
  rw [parse_eq hanswer]
  refine (runs_lookup rfl w').bind ((runs_lookup htext w').bind ((runs_out text w').bind ?_))
  cases result with
  | ok _ => exact hdraw.bind (runs_pure _ _)
  | error e => exact hdraw.bind_error

/-- Parsing that never ends writes nothing. -/
theorem Unending.runs_parse (h : Unending w.files w.input r file gen) (w' : World) :
    Runs (match r.parseInput with
      | some input => parse World.host gen r.options r.files.tree input
      | none => pure (some 0)) w' (.ok none) w' := by
  obtain ⟨input, hinput, hendless⟩ := h.endless
  have hnone := (gen.ofInput_eq_none_iff r.options.maxSteps input).mpr ⟨h.maxSteps_eq, hendless⟩
  rw [hinput]
  show Runs (parse World.host gen r.options r.files.tree input) w' _ w'
  unfold parse
  rw [hnone]
  exact runs_pure none w'

/-- The tree of an accepted input has a drawing, and it cannot be written. -/
theorem Answers.runs_drawTree_none (h : Answers w.files w.input r file gen response)
    (hwanted : r.options.graphviz = true) (haccepted : response.accepted = true)
    (hcreate : w'.files.create? r.files.tree = none) :
    Runs (optional r.options.graphviz (drawTree r.files.tree response.root?)) w'
      (.error (.cannotOpen r.files.tree)) w' := by
  rw [Response.accepted_eq_isSome] at haccepted
  obtain ⟨⟨arena, root⟩, hroot⟩ := Option.isSome_iff_exists.mp haccepted
  rw [hwanted, hroot]
  exact runs_draw_none (h.rooted.drawing_eq_ok hroot) hcreate

/-- The tree of an accepted input is drawn, if that is wanted. No other input has a tree. -/
theorem Answers.exists_runs_drawTree (h : Answers w.files w.input r file gen response)
    (hcreate : r.options.graphviz = true → response.accepted = true →
      w'.files.create? r.files.tree ≠ none) :
    ∃ w'', Runs (optional r.options.graphviz (drawTree r.files.tree response.root?)) w'
        (.ok ()) w'' ∧
      w'.files.Touches (Written w.files w.input r file) w''.files := by
  cases hroot : response.root? with
  | none =>
      refine ⟨w', ?_, .refl _ _⟩
      cases r.options.graphviz <;> exact runs_pure () w'
  | some q =>
      obtain ⟨arena, root⟩ := q
      have haccepted : response.accepted = true := by
        rw [Response.accepted_eq_isSome, hroot]
        rfl
      exact exists_runs_draw (h.rooted.drawing_eq_ok hroot)
        (fun hwanted => hcreate hwanted haccepted)
        (fun hwanted => Written.tree h hwanted haccepted)

/-- Whatever was generated, the command ends as `Executes` says. -/
theorem Executes.runs {result : Except CommandError (Option UInt32)}
    (h : Executes w.files w.input r file result) :
    ∃ w', Runs (execute World.host r file) w result w' ∧
      w.files.Touches (Written w.files w.input r file) w'.files := by
  cases h with
  | notGenerated h =>
      obtain ⟨w', hgenerate, htouches⟩ := h.runs
      rw [execute_eq]
      exact ⟨w', hgenerate.bind_error, htouches⟩
  | noAutomaton hgen hwanted h =>
      obtain ⟨w', htouches, hreported⟩ := exists_runs_reported hgen
      have hdraw := runs_draw_none hgen.describes.1.drawing_eq_ok
        ((htouches.create?_eq_none _).mpr h)
      rw [execute_eq]
      refine ⟨w', hreported ?_, htouches⟩
      rw [hwanted]
      exact hdraw.bind_error
  | generated hgen hdraws h =>
      obtain ⟨w', htouches, hdrawn⟩ := exists_runs_drawn hgen hdraws
      refine ⟨w', hdrawn ?_, htouches⟩
      rw [h]
      exact runs_pure (some 0) w'
  | unending h hdraws =>
      obtain ⟨w', htouches, hdrawn⟩ := exists_runs_drawn h.generates hdraws
      exact ⟨w', hdrawn (h.runs_parse w'), htouches⟩
  | noTree hanswers hdraws hwanted haccepted h =>
      obtain ⟨w', htouches, hdrawn⟩ := exists_runs_drawn hanswers.generates hdraws
      obtain ⟨w₁, hfiles, hparse⟩ := hanswers.exists_runs_parse w'
      rw [← hfiles] at htouches
      have hcreate := (htouches.create?_eq_none r.files.tree).mpr h
      exact ⟨w₁, hdrawn (hparse (hanswers.runs_drawTree_none hwanted haccepted hcreate)), htouches⟩
  | answered hanswers hdraws htree =>
      obtain ⟨w', htouches, hdrawn⟩ := exists_runs_drawn hanswers.generates hdraws
      obtain ⟨w₁, hfiles, hparse⟩ := hanswers.exists_runs_parse w'
      rw [← hfiles] at htouches
      obtain ⟨w₂, hdraw, htouches'⟩ := hanswers.exists_runs_drawTree fun hwanted haccepted =>
        mt (htouches.create?_eq_none r.files.tree).mp (htree hwanted haccepted)
      exact ⟨w₂, hdrawn (hparse hdraw), htouches.trans htouches'⟩

/-- The input of the command line, if there is one, is answered or parsed forever. -/
theorem Generates.exists_answers {fs : FileStore} {stdin : Text}
    (h : Generates fs stdin r file (.ok gen)) (hinput : r.parseInput ≠ none) :
    (∃ response, Answers fs stdin r file gen response) ∨ Unending fs stdin r file gen := by
  obtain ⟨input, hinput⟩ := Option.ne_none_iff_exists'.mp hinput
  obtain ⟨-, g, hdescribes⟩ := h.describes
  cases hanswer : Response.ofInput gen r.options.maxSteps input with
  | none =>
      obtain ⟨hmaxSteps, hendless⟩ := (gen.ofInput_eq_none_iff _ input).mp hanswer
      exact Or.inr ⟨h, hmaxSteps, input, hinput, hendless⟩
  | some answer =>
      obtain ⟨response, -, rfl, -⟩ := hdescribes.ends_ofInput hanswer
      exact Or.inl ⟨response, h, input, hinput, hanswer⟩

theorem exists_executes (fs : FileStore) (stdin : Text) (r : Reading) (file : Text) :
    ∃ result, Executes fs stdin r file result := by
  obtain ⟨e | gen, hgen⟩ := exists_generates fs stdin r file
  · exact ⟨_, .notGenerated hgen⟩
  by_cases hdraws : Draws fs r
  · cases hinput : r.parseInput with
    | none => exact ⟨_, .generated hgen hdraws hinput⟩
    | some input =>
        obtain ⟨response, hanswers⟩ | hunending := hgen.exists_answers (by simp [hinput])
        case inr => exact ⟨_, .unending hunending hdraws⟩
        by_cases htree : r.options.graphviz = true → response.accepted = true →
            fs.create? r.files.tree ≠ none
        · exact ⟨_, .answered hanswers hdraws htree⟩
        · simp only [Classical.not_imp, not_not] at htree
          obtain ⟨hwanted, haccepted, hnone⟩ := htree
          exact ⟨_, .noTree hanswers hdraws hwanted haccepted hnone⟩
  · simp only [Draws, Classical.not_imp, not_not] at hdraws
    exact ⟨_, .noAutomaton hgen hdraws.1 hdraws.2⟩

end Executing

/-! ### The whole command -/

section Attempt

variable {arguments : List Text} {fs : FileStore} {stdin : Text} {w : World}

/-- The command ends as `Ends` says. -/
theorem Ends.runs {result : Except CommandError (Option UInt32)}
    (h : Ends arguments w.files w.input result) :
    ∃ w', Runs (attempt World.host arguments) w result w' ∧
      w.files.Touches
        (fun name => ∃ r file, Asks arguments r file ∧ Written w.files w.input r file name)
        w'.files := by
  obtain ⟨printed, hprinted, hfiles, hinput⟩ : ∃ printed : World,
      Runs (liftM (World.host.out (Reading.ofArguments arguments).printed)) w (.ok ()) printed ∧
        printed.files = w.files ∧ printed.input = w.input := ⟨_, runs_out _ w, rfl, rfl⟩
  have hnothing : ∀ names, w.files.Touches names printed.files := fun names =>
    hfiles ▸ .refl _ names
  cases h with
  | usage h =>
      refine ⟨printed, hprinted.bind ?_, hnothing _⟩
      rw [h]
      rfl
  | informed h =>
      refine ⟨printed, hprinted.bind ?_, hnothing _⟩
      rw [h]
      rfl
  | @executed r file _ hasks h =>
      rw [← hfiles, ← hinput] at h ⊢
      obtain ⟨w', hexecute, htouches⟩ := h.runs
      refine ⟨w', hprinted.bind ?_, htouches.mono fun name hname => ⟨r, file, hasks, hname⟩⟩
      obtain ⟨rfl, hstatus, i, hindex, hfile⟩ := hasks
      rw [hstatus, hindex]
      simpa [List.getD_eq_getElem?_getD, hfile] using hexecute

theorem exists_ends (arguments : List Text) (fs : FileStore) (stdin : Text) :
    ∃ result, Ends arguments fs stdin result := by
  cases hstatus : (Reading.ofArguments arguments).status with
  | failed e => exact ⟨_, .usage hstatus⟩
  | done => exact ⟨_, .informed hstatus⟩
  | reading =>
      obtain ⟨i, file, hargument⟩ := Reading.exists_grammarFile hstatus
      obtain ⟨result, hresult⟩ := exists_executes fs stdin (Reading.ofArguments arguments) file
      exact ⟨result, .executed ⟨rfl, hstatus, i, hargument⟩ hresult⟩

/-- A run of the command ends in one way. -/
theorem attempt_eq_iff (arguments : List Text) (w : World)
    (result : Except CommandError (Option UInt32)) :
    ((attempt World.host arguments).run.run w).1 = result ↔
      Ends arguments w.files w.input result := by
  constructor
  · intro h
    obtain ⟨result', hends⟩ := exists_ends arguments w.files w.input
    obtain ⟨w', hruns, -⟩ := hends.runs
    rw [hruns] at h
    exact h ▸ hends
  · intro h
    obtain ⟨w', hruns, -⟩ := h.runs
    rw [hruns]

theorem Ends.unique {result result' : Except CommandError (Option UInt32)}
    (h : Ends arguments fs stdin result) (h' : Ends arguments fs stdin result') :
    result = result' :=
  ((attempt_eq_iff arguments ⟨fs, stdin, [], []⟩ result).mpr h).symm.trans
    ((attempt_eq_iff arguments ⟨fs, stdin, [], []⟩ result').mpr h')

end Attempt

/-! ### The exit status -/

section Status

variable {arguments : List Text} {fs : FileStore} {stdin : Text} {w : World} {r : Reading}
  {file : Text} {gen : Generation} {response : Response}

end Status

/-! ### Output files -/

end Command

end ShiftReduce
