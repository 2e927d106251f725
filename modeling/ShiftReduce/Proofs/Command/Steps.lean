import ShiftReduce.Command
import ShiftReduce.Proofs.Command.Files

/-!
# ShiftReduce.Proofs.Command.Steps

**What the steps of the command do to a world.** `Command.Runs` says how a step ends and which world
it leaves. A step that ends with an error ends the steps after it (`Runs.bind_error`), and what was
written before stays written. Writing a whole file is `FileStore.write?`, which fails if the file
cannot be created.
-/

namespace ShiftReduce

/-- Creates a file with the given content, if that is possible. -/
def FileStore.write? (fs : FileStore) (file content : Text) : Option FileStore :=
  (fs.create? file).map (·.append file content)

namespace FileStore

variable {fs fs' : FileStore} {file content : Text}

theorem write?_eq_none : fs.write? file content = none ↔ fs.create? file = none :=
  Option.map_eq_none_iff

theorem Touches.of_write? {files : Text → Prop} (hfile : files file)
    (h : fs.write? file content = some fs') : fs.Touches files fs' := by
  obtain ⟨created, hcreate, rfl⟩ := Option.map_eq_some_iff.mp h
  exact (of_create? hfile hcreate).trans (of_append hfile created content)

end FileStore

namespace Command

/-- Started in the world `w`, the step ends with the result and leaves the world `w'`. -/
def Runs {α : Type} (x : ExceptT CommandError (StateM World) α) (w : World)
    (result : Except CommandError α) (w' : World) : Prop :=
  x.run.run w = (result, w')

section Runs

variable {α β : Type} {x : ExceptT CommandError (StateM World) α}
  {f : α → ExceptT CommandError (StateM World) β} {w w' w'' : World}

theorem Runs.bind {a : α} {result : Except CommandError β} (hx : Runs x w (.ok a) w')
    (hf : Runs (f a) w' result w'') : Runs (x >>= f) w result w'' := by
  unfold Runs at hx ⊢
  rw [ExceptT.run_bind, StateT.run_bind, hx]
  exact hf

/-- An error ends the steps after it. -/
theorem Runs.bind_error {e : CommandError} (hx : Runs x w (.error e) w') :
    Runs (x >>= f) w (.error e) w' := by
  unfold Runs at hx ⊢
  rw [ExceptT.run_bind, StateT.run_bind, hx]
  rfl

theorem runs_pure (a : α) (w : World) : Runs (pure a) w (.ok a) w :=
  rfl

theorem runs_lift {x : StateM World α} {a : α} (h : x.run w = (a, w')) :
    Runs (liftM x) w (.ok a) w' := by
  show StateT.run (Except.ok <$> x) w = (.ok a, w')
  rw [StateT.run_map, h]
  rfl

theorem runs_out (text : Text) (w : World) :
    Runs (liftM (World.host.out text)) w (.ok ()) { w with out := w.out ++ text } :=
  rfl

theorem runs_append (file content : Text) (w : World) :
    Runs (liftM (World.host.append file content)) w (.ok ())
      { w with files := w.files.append file content } :=
  rfl

theorem runs_lookup {result : Except Missing α} {a : α} (h : result = .ok a) (w : World) :
    Runs (lookup result) w (.ok a) w := by
  rw [h]
  rfl

theorem runs_grammarStep_ok {result : Except GrammarError α} {a : α} (h : result = .ok a)
    (w : World) : Runs (grammarStep result) w (.ok a) w := by
  rw [h]
  rfl

theorem runs_grammarStep_error {result : Except GrammarError α} {e : GrammarError}
    (h : result = .error e) (w : World) : Runs (grammarStep result) w (.error (.grammar e)) w := by
  rw [h]
  rfl

end Runs

/-! ### Files -/

section Files

variable {w : World} {fs : FileStore} {file content : Text}

theorem runs_create_none (h : w.files.create? file = none) :
    Runs (create World.host file) w (.error (.cannotOpen file)) w := by
  have hhost : (World.host.create file).run w = (false, w) := by
    simp only [World.host, StateT.run_bind, StateT.run_get]
    rw [pure_bind, h]
    rfl
  exact (runs_lift hhost).bind rfl

theorem runs_create_some (h : w.files.create? file = some fs) :
    Runs (create World.host file) w (.ok ()) { w with files := fs } := by
  have hhost : (World.host.create file).run w = (true, { w with files := fs }) := by
    simp only [World.host, StateT.run_bind, StateT.run_get]
    rw [pure_bind, h]
    rfl
  exact (runs_lift hhost).bind rfl

theorem runs_write_none (h : w.files.write? file content = none) :
    Runs (write World.host file content) w (.error (.cannotOpen file)) w :=
  (runs_create_none (FileStore.write?_eq_none.mp h)).bind_error

theorem runs_write_some (h : w.files.write? file content = some fs) :
    Runs (write World.host file content) w (.ok ()) { w with files := fs } := by
  obtain ⟨created, hcreate, rfl⟩ := Option.map_eq_some_iff.mp h
  exact (runs_create_some hcreate).bind rfl

/-- The text of the grammar: the standard input for a hyphen, or the content of the file. -/
def grammarText (fs : FileStore) (input file : Text) : Option Text :=
  if file = ("-" : Text) then some input else fs.read? file

theorem runs_readGrammarText_none (h : grammarText w.files w.input file = none) :
    Runs (readGrammarText World.host file) w (.error (.cannotOpen file)) w := by
  unfold grammarText at h
  split at h
  · cases h
  · rename_i hfile
    have hread : (World.host.read file).run w = (none, w) := by
      show (w.files.read? file, w) = _
      rw [h]
    unfold readGrammarText
    rw [if_neg hfile]
    exact (runs_lift hread).bind rfl

theorem runs_readGrammarText_some {text : Text} (h : grammarText w.files w.input file = some text) :
    Runs (readGrammarText World.host file) w (.ok text) w := by
  unfold grammarText at h
  unfold readGrammarText
  split at h
  · rename_i hfile
    cases h
    rw [if_pos hfile]
    rfl
  · rename_i hfile
    have hread : (World.host.read file).run w = (some text, w) := by
      show (w.files.read? file, w) = _
      rw [h]
    rw [if_neg hfile]
    exact (runs_lift hread).bind rfl

end Files

/-! ### Steps that may be left out -/

/-- A step that is taken if it is wanted. -/
def optional (wanted : Bool) (x : ExceptT CommandError (StateM World) Unit) :
    ExceptT CommandError (StateM World) Unit :=
  if wanted then x else pure ()

section Optional

variable {x : ExceptT CommandError (StateM World) Unit} {w w' : World}

theorem runs_optional_false : Runs (optional false x) w (.ok ()) w :=
  rfl

theorem Runs.optional_true {result : Except CommandError Unit} (h : Runs x w result w') :
    Runs (optional true x) w result w' :=
  h

/-- Generating, where the steps for the listing are steps of their own. -/
theorem generate_eq (options : Options) (listing file : Text) :
    generate World.host options listing file = (do
      optional options.verbose (write World.host listing (heading file))
      let text ← readGrammarText World.host file
      let g ← grammarStep (Grammar.read text)
      let generated ← lookup (Generation.ofGrammar g options.mode options.log)
      optional options.verbose (do
        World.host.append listing generated.2
        let text ← lookup (generated.1.listing options.showStates)
        World.host.append listing text)
      pure generated.1) := by
  unfold generate optional
  cases options.verbose
  · simp
  · simp

/-- Draws the tree of an answer, if it has one. -/
def drawTree (treeFile : Text) : Option (Arena × NodeId) → ExceptT CommandError (StateM World) Unit
  | none => pure ()
  | some (arena, root) => do
    let text ← lookup (Drawing.tree arena root)
    write World.host treeFile text

/-- Parsing an input that has an answer, where drawing is a step of its own. -/
theorem parse_eq {gen : Generation} {options : Options} {input : Text}
    {answer : Except Missing Response}
    (h : Response.ofInput gen options.maxSteps input = some answer) (treeFile : Text) :
    parse World.host gen options treeFile input = (do
      let response ← lookup answer
      let text ← lookup (response.toText gen.grammar options.showTrace)
      World.host.out text
      optional options.graphviz (drawTree treeFile response.root?)
      pure (some (statusOf response))) := by
  unfold parse optional
  rw [h]
  refine bind_congr fun response => bind_congr fun text => bind_congr fun _ => ?_
  rcases response.root? with _ | ⟨arena, root⟩
  · cases options.graphviz <;> simp [drawTree]
  · cases options.graphviz <;> simp [drawTree]

/-- The command after its command line was read, where drawing is a step of its own. -/
theorem execute_eq (r : Reading) (file : Text) :
    execute World.host r file = (do
      let gen ← generate World.host r.options r.files.listing file
      reportConflicts World.host gen file
      optional r.options.graphviz (do
        let text ← lookup (Drawing.automaton gen)
        write World.host r.files.automaton text)
      match r.parseInput with
      | some input => parse World.host gen r.options r.files.tree input
      | none => pure (some 0)) := by
  unfold execute optional
  refine bind_congr fun gen => bind_congr fun _ => ?_
  cases r.options.graphviz <;> cases r.parseInput <;> simp

end Optional

/-- Conflicts are reported on the outputs. -/
theorem runs_reportConflicts (gen : Generation) (file : Text) (w : World) :
    ∃ w', Runs (reportConflicts World.host gen file) w (.ok ()) w' ∧ w'.files = w.files := by
  unfold reportConflicts
  cases gen.isValid
  · exact ⟨_, (runs_out _ w).bind rfl, rfl⟩
  · exact ⟨_, (runs_out _ w).bind rfl, rfl⟩

end Command

end ShiftReduce
