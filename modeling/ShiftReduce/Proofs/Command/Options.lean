import ShiftReduce.Command.Options

/-!
# ShiftReduce.Proofs.Command.Options

**What holds of every reading of a command line** (`Reading.Fits`): the output files have a common
stem, the place of the grammar file is the place of an argument that was read, and nothing is
printed but the usage or the version, which ends the reading. Every function of the reader keeps
this, and so does the reading of a whole command line, by induction on the arguments.
-/

namespace ShiftReduce

namespace Reading

/-- The invariant of a reading that has read all places below `n`. -/
structure Fits (r : Reading) (n : Nat) : Prop where
  files : ∃ stem, r.files = .ofStem stem
  grammar : ∀ k ∈ r.grammarIndex, 1 ≤ k ∧ k < n
  printed : r.status ≠ .done → r.printed = []
  done : r.status = .done → r.printed = usage.line ∨ r.printed = version.line

namespace Fits

variable {r r' : Reading} {n : Nat}

theorem initial : Reading.initial.Fits 1 where
  files := ⟨"y", rfl⟩
  grammar := fun _ hk => by cases hk
  printed := fun _ => rfl
  done := fun h => by cases h

theorem mono (h : r.Fits n) {m : Nat} (hnm : n ≤ m) : r.Fits m := by
  refine ⟨h.files, fun k hk => ?_, h.printed, h.done⟩
  obtain ⟨hpos, hlt⟩ := h.grammar k hk
  exact ⟨hpos, Nat.lt_of_lt_of_le hlt hnm⟩

/-- What sets neither the files nor the place of the grammar file, and prints nothing. -/
theorem of_eq (h : r.Fits n) (hreading : r.status = .reading) (hfiles : r'.files = r.files)
    (hgrammar : r'.grammarIndex = r.grammarIndex) (hprinted : r'.printed = r.printed)
    (hstatus : r'.status ≠ .done) : r'.Fits n where
  files := hfiles ▸ h.files
  grammar := hgrammar ▸ h.grammar
  printed := fun _ => hprinted.trans (h.printed (by simp [hreading]))
  done := fun hdone => absurd hdone hstatus

theorem fail (h : r.Fits n) (hreading : r.status = .reading) (e : UsageError) : (r.fail e).Fits n :=
  h.of_eq hreading rfl rfl rfl (by simp [Reading.fail])

theorem set (h : r.Fits n) (hreading : r.status = .reading) (f : Options → Options) :
    (r.set f).Fits n :=
  h.of_eq hreading rfl rfl rfl (by simp [Reading.set, hreading])

theorem finish (h : r.Fits n) (hreading : r.status = .reading) {message : Text}
    (hmessage : message = usage ∨ message = version) : (r.finish message).Fits n where
  files := h.files
  grammar := h.grammar
  printed := fun hdone => absurd rfl hdone
  done := fun _ => by
    have hprinted : r.printed = [] := h.printed (by simp [hreading])
    rcases hmessage with rfl | rfl <;> simp [Reading.finish, hprinted]

/-! ### Values -/

theorem takeOutputName (h : r.Fits n) (hreading : r.status = .reading) (stem : Text) :
    (r.takeOutputName stem).Fits n := by
  unfold Reading.takeOutputName
  split
  · exact h.fail hreading _
  · exact ⟨⟨stem, rfl⟩, h.grammar, h.printed, h.done⟩

theorem takeStepLimit (h : r.Fits n) (hreading : r.status = .reading) (value : Text) :
    (r.takeStepLimit value).Fits n := by
  unfold Reading.takeStepLimit
  split
  · split
    · exact h.set hreading _
    · exact h.fail hreading _
  · exact h.fail hreading _

theorem takeValue (h : r.Fits n) (hreading : r.status = .reading) (switch : ValueSwitch)
    (value : Text) : (r.takeValue switch value).Fits n := by
  cases switch with
  | outputName => exact h.takeOutputName hreading value
  | parseInput => exact h.of_eq hreading rfl rfl rfl (by simp [Reading.takeValue, hreading])
  | stepLimit => exact h.takeStepLimit hreading value

/-! ### Letters -/

theorem readListing (h : r.Fits n) (hreading : r.status = .reading) (rest : Text) :
    (r.readListing rest).Fits n := by
  unfold Reading.readListing
  split
  · exact h.set hreading _
  · exact h.fail hreading _

theorem readLetter (h : r.Fits n) (hreading : r.status = .reading) (letter : UInt8)
    (rest : Text) : (r.readLetter letter rest).Fits n := by
  have hpending : ∀ options pending,
      { r with options := options, pending := pending }.Fits n := fun _ _ =>
    h.of_eq hreading rfl rfl rfl (by simp [hreading])
  unfold Reading.readLetter
  split
  case h_2 | h_3 => exact h.finish hreading (Or.inl rfl)
  case h_11 => exact h.finish hreading (Or.inr rfl)
  case h_12 => exact h.readListing hreading rest
  case h_13 =>
      split
      · exact h
      · exact h.fail hreading _
  all_goals first | exact h.set hreading _ | exact hpending _ _

/-- Letters are read until one of them ends the reading. -/
theorem readLetters (letters : Text) : ∀ {r : Reading}, r.Fits n → r.status = .reading →
    (r.readLetters letters).Fits n := by
  induction letters with
  | nil =>
      intro r h _
      exact h
  | cons letter rest ih =>
      intro r h hreading
      have hnext := h.readLetter hreading letter rest
      unfold Reading.readLetters
      by_cases hstatus : (r.readLetter letter rest).status = .reading
      · rw [if_pos hstatus]
        exact ih hnext hstatus
      · rw [if_neg hstatus]
        exact hnext

/-! ### Arguments -/

theorem readValueSwitch (h : r.Fits n) (hreading : r.status = .reading) (argument : Text) :
    (r.readValueSwitch argument).Fits n := by
  unfold Reading.readValueSwitch
  split
  · exact (h.set hreading _).takeOutputName hreading _
  split
  · exact h.of_eq hreading rfl rfl rfl (by simp [hreading])
  split
  · exact h.takeStepLimit hreading _
  · exact h.fail hreading _

theorem readLong (h : r.Fits n) (hreading : r.status = .reading) (argument : Text) :
    (r.readLong argument).Fits n := by
  unfold Reading.readLong
  repeat'
    first
    | exact h.set hreading _
    | exact h.finish hreading (Or.inl rfl)
    | exact h.finish hreading (Or.inr rfl)
    | exact h.readValueSwitch hreading argument
    | split

/-- The grammar file is at the place that is read. -/
theorem readFree (h : r.Fits n) (hreading : r.status = .reading) (hn : 1 ≤ n) (argument : Text) :
    (r.readFree n argument).Fits (n + 1) := by
  have hmono : ∀ {r' : Reading}, r'.Fits n → r'.Fits (n + 1) := fun h' => h'.mono (by omega)
  unfold Reading.readFree
  split
  · exact hmono (h.readLong hreading _)
  · exact hmono (readLetters _ h hreading)
  split
  · refine ⟨h.files, fun k hk => ?_, h.printed, h.done⟩
    cases hk
    omega
  · exact hmono (h.fail hreading _)

theorem readArgument (h : r.Fits n) (hreading : r.status = .reading) (hn : 1 ≤ n)
    (argument : Text) : (r.readArgument n argument).Fits (n + 1) := by
  unfold Reading.readArgument
  split
  · have hclear : { r with pending := none }.Fits n :=
      h.of_eq hreading rfl rfl rfl (by simp [hreading])
    exact (hclear.takeValue hreading _ argument).mono (by omega)
  · exact h.readFree hreading hn argument

theorem readArguments (arguments : List Text) : ∀ {r : Reading} {n : Nat}, r.Fits n →
    r.status = .reading → 1 ≤ n → (r.readArguments n arguments).Fits (n + arguments.length) := by
  induction arguments with
  | nil =>
      intro r n h _ _
      exact h
  | cons argument rest ih =>
      intro r n h hreading hn
      have hnext := h.readArgument hreading hn argument
      have hlength : n + (argument :: rest).length = n + 1 + rest.length := by
        rw [List.length_cons]
        omega
      unfold Reading.readArguments
      rw [hlength]
      by_cases hstatus : (r.readArgument n argument).status = .reading
      · rw [if_pos hstatus]
        exact ih hnext hstatus (by omega)
      · rw [if_neg hstatus]
        exact hnext.mono (by omega)

theorem close (h : r.Fits n) : r.close.Fits n := by
  unfold Reading.close
  split
  · rename_i hreading
    split
    · exact h.fail hreading _
    split
    · exact h.fail hreading _
    · exact h
  · exact h

end Fits

/-- The invariant holds of the reading of a command line. -/
theorem fits_ofArguments (arguments : List Text) :
    (ofArguments arguments).Fits (1 + arguments.length) :=
  (Fits.readArguments arguments .initial rfl Nat.le.refl).close

/-- A reading that still goes on at the end was complete. -/
theorem close_inv {r : Reading} (h : r.close.status = .reading) :
    r.close = r ∧ r.grammarIndex.isSome = true := by
  unfold close at h ⊢
  split at h
  · rename_i hreading
    rw [if_pos hreading]
    cases hpending : r.pending with
    | some switch =>
        rw [hpending] at h
        cases h
    | none =>
        rw [hpending] at h
        cases hindex : r.grammarIndex with
        | none =>
            simp only [hindex] at h
            cases h
        | some k => exact ⟨rfl, rfl⟩
  · contradiction

/-- A reading that was not ended has found a grammar file, and its place is the place of an
argument. -/
theorem exists_grammarFile {arguments : List Text}
    (h : (ofArguments arguments).status = .reading) :
    ∃ i file, (ofArguments arguments).grammarIndex = some (i + 1) ∧ arguments[i]? = some file := by
  obtain ⟨heq, hsome⟩ := close_inv h
  obtain ⟨k, hk⟩ := Option.isSome_iff_exists.mp hsome
  have hindex : (ofArguments arguments).grammarIndex = some k := by
    unfold ofArguments
    rw [heq, hk]
  obtain ⟨hpos, hlt⟩ := (fits_ofArguments arguments).grammar k hindex
  refine ⟨k - 1, arguments[k - 1], ?_, List.getElem?_eq_getElem (by omega)⟩
  rw [hindex, Nat.sub_add_cancel hpos]

end Reading

end ShiftReduce
