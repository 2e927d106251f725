import ShiftReduce.Command
import ShiftReduce.Proofs.Command.Requests

/-!
# ShiftReduce.Proofs.Command.Grouping

**A group of letters means what its letters mean as arguments of their own**, as long as only the
last of them asks for a value and none is `D`, which reads what follows it in its group.

Two facts carry this. A letter without a value leaves the reader ready for a switch, so it does not
matter whether the next one comes from the same group or from the next argument
(`Reading.readArguments_separate`). And the reader looks at the place of the grammar file only when
it comes to a second one (`Reading.Overlooks`), so arguments that stand further on are read as
before, and only this place is further on, too (`Reading.readArguments_moveGrammar`). It is the
place of the same file, so the command does the same (`Command.run_separate`).
-/

namespace ShiftReduce

namespace Reading

variable {r : Reading} {letter last : UInt8} {letters plain argument : Text} {place extra n : Nat}

/-! ### Letters -/

/-- A letter that asks for no value and reads nothing after it. -/
def isPlain (letter : UInt8) : Bool :=
  match Char.ofUInt8 letter with
  | 'g' | 'h' | '?' | 'L' | 'S' | 't' | 'v' | 'V' => true
  | '0' | '1' | '2' | '3' | '4' | '5' | '6' | '7' | '8' | '9' => true
  | _ => false

/-- A letter that may be the last of a group of plain letters. It may ask for a value, since the
value is the next argument. -/
def EndsGroup (letter : UInt8) : Prop :=
  isPlain letter = true ∨ (ValueSwitch.ofLetter? letter).isSome = true

instance (letter : UInt8) : Decidable (EndsGroup letter) :=
  inferInstanceAs (Decidable (_ ∨ _))

theorem ofLetter?_of_isPlain (h : isPlain letter = true) :
    ValueSwitch.ofLetter? letter = none := by
  unfold isPlain at h
  unfold ValueSwitch.ofLetter?
  split
  case h_4 => rfl
  all_goals
    rename_i hletter
    rw [hletter] at h
    cases h

theorem EndsGroup.ne (h : EndsGroup letter) : Char.ofUInt8 letter ≠ 'D' ∧ letter ≠ 45 := by
  refine ⟨fun hletter => ?_, fun hletter => ?_⟩
  · rcases h with h | h
    · rw [isPlain, hletter] at h
      cases h
    · rw [ValueSwitch.ofLetter?, hletter] at h
      cases h
  · subst hletter
    exact absurd h (by decide)

/-- Only `D` looks at the letters after it. -/
theorem readLetter_eq (h : Char.ofUInt8 letter ≠ 'D') (r : Reading) (rest : Text) :
    r.readLetter letter rest = r.readLetter letter [] := by
  unfold readLetter
  split
  case h_12 hletter => exact absurd hletter h
  all_goals rfl

theorem readLetters_singleton (r : Reading) (letter : UInt8) :
    r.readLetters [letter] = r.readLetter letter [] := by
  simp only [readLetters, ite_self]

/-- A letter as an argument of its own. -/
theorem readArgument_singleton (hpending : r.pending = none) (hletter : EndsGroup letter) (n : Nat)
    (rest : Text) : r.readArgument n [45, letter] = r.readLetter letter rest := by
  have hletters : lettersOf? [45, letter] = some [letter] := by
    unfold lettersOf?
    split
    · rename_i heq
      cases heq
      exact absurd rfl hletter.ne.2
    · rename_i heq
      cases heq
      rfl
    · rename_i hnot
      exact absurd rfl (hnot letter [])
  rw [readArgument_of_groupOf? (groupOf?_eq_some.mpr ⟨hpending, hletters⟩), readLetters_singleton,
    readLetter_eq hletter.ne.1 r rest]

/-! ### Groups -/

/-- The letters of a group as arguments of their own. -/
def separate (letters : Text) : List Text :=
  letters.map fun letter => [45, letter]

/-- The letters of a group are read one after the other, whether they share an argument or not. -/
theorem readArguments_separate (hlast : EndsGroup last) (after : List Text) :
    ∀ {plain : Text} {r : Reading} {n : Nat}, (∀ letter ∈ plain, isPlain letter = true) →
      r.pending = none → r.readArguments n (separate (plain ++ [last]) ++ after) =
        (r.readLetters (plain ++ [last])).resume (n + 1 + plain.length) after := by
  intro plain
  induction plain with
  | nil =>
      intro r n _ hpending
      rw [List.nil_append, readLetters_singleton, ← readArgument_singleton hpending hlast n []]
      exact readArguments_cons r n [45, last] after
  | cons letter plain ih =>
      intro r n hplain hpending
      have hletter : isPlain letter = true := hplain letter List.mem_cons_self
      have hplain' : ∀ c ∈ plain, isPlain c = true := fun c hc =>
        hplain c (List.mem_cons_of_mem _ hc)
      have hpending' : (r.readLetter letter (plain ++ [last])).pending = none := by
        rw [pending_readLetter, ofLetter?_of_isPlain hletter, hpending]
        rfl
      have hcons : r.readArguments n (separate (letter :: plain ++ [last]) ++ after) =
          (r.readLetter letter (plain ++ [last])).resume (n + 1)
            (separate (plain ++ [last]) ++ after) := by
        rw [← readArgument_singleton hpending (Or.inl hletter) n]
        exact readArguments_cons r n [45, letter] _
      rw [hcons, List.cons_append, readLetters, List.length_cons]
      by_cases hstatus : (r.readLetter letter (plain ++ [last])).status = .reading
      · rw [resume_of_reading hstatus, if_pos hstatus, ih hplain' hpending', Nat.add_assoc (n + 1),
          Nat.add_comm 1]
      · rw [resume_of_ended hstatus, if_neg hstatus, resume_of_ended hstatus]

/-! ### The place of the grammar file -/

def withGrammarIndex (r : Reading) (index : Option Nat) : Reading :=
  { r with grammarIndex := index }

/-- The same reading, with the grammar file `extra` places further on if it comes after a place. -/
def moveGrammar (r : Reading) (place extra : Nat) : Reading :=
  r.withGrammarIndex (r.grammarIndex.map fun k => if place < k then k + extra else k)

@[simp] theorem status_moveGrammar (r : Reading) (place extra : Nat) :
    (r.moveGrammar place extra).status = r.status :=
  rfl

@[simp] theorem pending_moveGrammar (r : Reading) (place extra : Nat) :
    (r.moveGrammar place extra).pending = r.pending :=
  rfl

@[simp] theorem isNone_moveGrammar (r : Reading) (place extra : Nat) :
    (r.moveGrammar place extra).grammarIndex.isNone = r.grammarIndex.isNone :=
  Option.isNone_map

/-- A function of the reader that neither reads nor changes the place of the grammar file. -/
def Overlooks (f : Reading → Reading) : Prop :=
  ∀ (r : Reading) (index : Option Nat), f (r.withGrammarIndex index) = (f r).withGrammarIndex index

namespace Overlooks

variable {f : Reading → Reading}

theorem grammarIndex (h : Overlooks f) (r : Reading) : (f r).grammarIndex = r.grammarIndex := by
  have heq : f r = (f r).withGrammarIndex r.grammarIndex := h r r.grammarIndex
  rw [heq]
  rfl

theorem moveGrammar (h : Overlooks f) (r : Reading) (place extra : Nat) :
    f (r.moveGrammar place extra) = (f r).moveGrammar place extra := by
  rw [Reading.moveGrammar, h, Reading.moveGrammar, h.grammarIndex]

theorem takeOutputName (stem : Text) : Overlooks (takeOutputName · stem) := by
  intro r index
  dsimp only
  unfold Reading.takeOutputName
  split <;> rfl

theorem takeStepLimit (value : Text) : Overlooks (takeStepLimit · value) := by
  intro r index
  dsimp only
  unfold Reading.takeStepLimit
  repeat' first | rfl | split

theorem takeValue (switch : ValueSwitch) (value : Text) : Overlooks (takeValue · switch value) := by
  cases switch with
  | outputName => exact takeOutputName value
  | parseInput => exact fun _ _ => rfl
  | stepLimit => exact takeStepLimit value

theorem readLetter (letter : UInt8) (rest : Text) : Overlooks (readLetter · letter rest) := by
  intro r index
  dsimp only
  unfold Reading.readLetter Reading.readListing
  repeat' first | rfl | split

theorem readLetters (letters : Text) : Overlooks (readLetters · letters) := by
  induction letters with
  | nil => exact fun _ _ => rfl
  | cons letter rest ih =>
      intro r index
      have hnext : (r.withGrammarIndex index).readLetter letter rest =
          (r.readLetter letter rest).withGrammarIndex index := readLetter letter rest r index
      dsimp only
      unfold Reading.readLetters
      rw [hnext]
      by_cases hstatus : (r.readLetter letter rest).status = .reading
      · rw [if_pos hstatus, ← ih]
        exact if_pos hstatus
      · rw [if_neg hstatus]
        exact if_neg hstatus

theorem readLong (argument : Text) : Overlooks (readLong · argument) := by
  intro r index
  dsimp only
  unfold Reading.readLong Reading.readValueSwitch
  repeat'
    first
    | rfl
    | exact takeOutputName _ (r.set ({ · with outputNamed := true })) index
    | exact takeStepLimit _ r index
    | split

end Overlooks

theorem readFree_moveGrammar (hplace : place < n) (r : Reading) (argument : Text) :
    (r.moveGrammar place extra).readFree (n + extra) argument =
      (r.readFree n argument).moveGrammar place extra := by
  unfold readFree
  split
  · exact (Overlooks.readLong _).moveGrammar r place extra
  · exact (Overlooks.readLetters _).moveGrammar r place extra
  · rw [isNone_moveGrammar]
    split
    · simp [moveGrammar, withGrammarIndex, hplace]
    · rfl

theorem readArgument_moveGrammar (hplace : place < n) (r : Reading) (argument : Text) :
    (r.moveGrammar place extra).readArgument (n + extra) argument =
      (r.readArgument n argument).moveGrammar place extra := by
  unfold readArgument
  rw [pending_moveGrammar]
  split
  · rename_i switch _
    exact (Overlooks.takeValue switch argument).moveGrammar { r with pending := none } place extra
  · exact readFree_moveGrammar hplace r argument

/-- Arguments that stand further on are read as before. -/
theorem readArguments_moveGrammar (arguments : List Text) : ∀ {n : Nat}, place < n →
    ∀ r : Reading, (r.moveGrammar place extra).readArguments (n + extra) arguments =
      (r.readArguments n arguments).moveGrammar place extra := by
  induction arguments with
  | nil => exact fun _ _ => rfl
  | cons argument rest ih =>
      intro n hplace r
      rw [readArguments_cons, readArguments_cons, readArgument_moveGrammar hplace, resume, resume,
        Nat.add_right_comm, ih (Nat.lt_succ_of_lt hplace)]
      by_cases hstatus : (r.readArgument n argument).status = .reading
      · rw [if_pos hstatus]
        exact if_pos hstatus
      · rw [if_neg hstatus]
        exact if_neg hstatus

theorem close_moveGrammar (r : Reading) (place extra : Nat) :
    (r.moveGrammar place extra).close = r.close.moveGrammar place extra := by
  unfold close
  rw [isNone_moveGrammar, status_moveGrammar, pending_moveGrammar]
  split
  · split
    · rfl
    · split <;> rfl
  · rfl

/-- A grammar file that was found before a place stays where it is. -/
theorem moveGrammar_of_le (h : ∀ k ∈ r.grammarIndex, k ≤ place) (extra : Nat) :
    r.moveGrammar place extra = r := by
  have hindex : (r.grammarIndex.map fun k => if place < k then k + extra else k) =
      r.grammarIndex := by
    cases hk : r.grammarIndex with
    | none => rfl
    | some k => rw [Option.map_some, if_neg (Nat.not_lt.mpr (h k hk))]
  rw [moveGrammar, hindex]
  rfl

/-! ### Command lines -/

/-- Reading all arguments, one of them a group and the other time its letters. -/
theorem readArguments_group {before : List Text}
    (hgroup : (initial.readArguments 1 before).groupOf? argument = some (plain ++ [last]))
    (hplain : ∀ letter ∈ plain, isPlain letter = true) (hlast : EndsGroup last)
    (after : List Text) :
    initial.readArguments 1 (before ++ separate (plain ++ [last]) ++ after) =
      (initial.readArguments 1 (before ++ argument :: after)).moveGrammar (before.length + 1)
        plain.length := by
  have hfound : ∀ k ∈ (initial.readArguments 1 before).grammarIndex, k ≤ before.length + 1 := by
    intro k hk
    have hlt := ((Fits.readArguments before .initial rfl Nat.le.refl).grammar k hk).2
    omega
  rw [List.append_assoc, readArguments_append before _ fun _ => rfl,
    readArguments_append before _ fun _ => rfl, Nat.add_comm 1]
  generalize initial.readArguments 1 before = r at hgroup hfound ⊢
  by_cases hstatus : r.status = .reading
  · have hread : ∀ k ∈ (r.readLetters (plain ++ [last])).grammarIndex, k ≤ before.length + 1 := by
      rw [(Overlooks.readLetters (plain ++ [last])).grammarIndex]
      exact hfound
    rw [resume_of_reading hstatus, resume_of_reading hstatus, readArguments_cons,
      readArgument_of_groupOf? hgroup,
      readArguments_separate hlast after hplain (groupOf?_eq_some.mp hgroup).1]
    generalize r.readLetters (plain ++ [last]) = s at hread ⊢
    by_cases hended : s.status = .reading
    · rw [resume_of_reading hended, resume_of_reading hended,
        ← readArguments_moveGrammar after (Nat.lt_succ_self _), moveGrammar_of_le hread]
    · rw [resume_of_ended hended, resume_of_ended hended, moveGrammar_of_le hread]
  · rw [resume_of_ended hstatus, resume_of_ended hstatus, moveGrammar_of_le hfound]

/-- **Grouped letters.** An argument that is read as a group of plain letters, the last of which may
ask for a value, can be replaced by its letters as arguments of their own. The reading stays the
same in all its parts, its end or its error included, but for the place of the grammar file. This is
further on exactly if it comes after the group, by one place for each letter before the last. -/
theorem ofArguments_separate {before : List Text} {argument plain : Text} {last : UInt8}
    (hgroup : (initial.readArguments 1 before).groupOf? argument = some (plain ++ [last]))
    (hplain : ∀ letter ∈ plain, isPlain letter = true) (hlast : EndsGroup last)
    (after : List Text) :
    ofArguments (before ++ separate (plain ++ [last]) ++ after) =
      (ofArguments (before ++ argument :: after)).moveGrammar (before.length + 1) plain.length := by
  rw [ofArguments, readArguments_group hgroup hplain hlast after]
  exact close_moveGrammar _ _ _

/-- In `-p -x -S5k 50 g.txt` the argument `-x` is a value, and `-S5k` is the group that is taken
apart. The grammar file was at place 5 and is at place 7. -/
theorem ofArguments_separate_limit :
    (initial.readArguments 1 ["-p", "-x"]).groupOf? "-S5k" = some (("S5" : Text) ++ [107]) ∧
      ofArguments ["-p", "-x", "-S", "-5", "-k", "50", "g.txt"] =
        (ofArguments ["-p", "-x", "-S5k", "50", "g.txt"]).moveGrammar 3 2 ∧
      (ofArguments ["-p", "-x", "-S5k", "50", "g.txt"]).grammarIndex = some 5 := by
  have hgroup : (initial.readArguments 1 ["-p", "-x"]).groupOf? "-S5k" =
      some (("S5" : Text) ++ [107]) := by decide +kernel
  have hplain : ∀ letter ∈ ("S5" : Text), isPlain letter = true := by decide +kernel
  have hlast : EndsGroup 107 := by decide
  have harguments : (["-p", "-x"] : List Text) ++ separate (("S5" : Text) ++ [107]) ++
      (["50", "g.txt"] : List Text) =
        (["-p", "-x", "-S", "-5", "-k", "50", "g.txt"] : List Text) := by decide +kernel
  have hseparate := ofArguments_separate hgroup hplain hlast ["50", "g.txt"]
  rw [harguments] at hseparate
  exact ⟨hgroup, hseparate, by decide +kernel⟩

/-! ### The whole command -/

/-- A grammar file that was not found before is found where it is read. -/
theorem grammarIndex_readArgument (r : Reading) (n : Nat) (argument : Text) :
    (r.readArgument n argument).grammarIndex = r.grammarIndex ∨
      (r.readArgument n argument).grammarIndex = some n := by
  unfold readArgument
  split
  · rename_i switch _
    exact Or.inl ((Overlooks.takeValue switch argument).grammarIndex _)
  · unfold readFree
    split
    · exact Or.inl ((Overlooks.readLong _).grammarIndex r)
    · exact Or.inl ((Overlooks.readLetters _).grammarIndex r)
    · split
      · exact Or.inr rfl
      · exact Or.inl rfl

theorem grammarIndex_readArguments (arguments : List Text) : ∀ (r : Reading) (n : Nat),
    (r.readArguments n arguments).grammarIndex = r.grammarIndex ∨
      ∃ k, n ≤ k ∧ (r.readArguments n arguments).grammarIndex = some k := by
  induction arguments with
  | nil => exact fun _ _ => Or.inl rfl
  | cons argument rest ih =>
      intro r n
      have hnext := grammarIndex_readArgument r n argument
      rw [readArguments_cons]
      by_cases hstatus : (r.readArgument n argument).status = .reading
      · rw [resume_of_reading hstatus]
        rcases ih (r.readArgument n argument) (n + 1) with hrest | ⟨k, hk, hrest⟩
        · rw [hrest]
          exact hnext.imp_right fun h => ⟨n, Nat.le_refl n, h⟩
        · exact Or.inr ⟨k, by omega, hrest⟩
      · rw [resume_of_ended hstatus]
        exact hnext.imp_right fun h => ⟨n, Nat.le_refl n, h⟩

theorem grammarIndex_close (r : Reading) : r.close.grammarIndex = r.grammarIndex := by
  unfold close
  repeat' first | rfl | split

/-- A group is no grammar file. -/
theorem grammarIndex_ne_of_groupOf? {before : List Text}
    (hgroup : (initial.readArguments 1 before).groupOf? argument = some letters)
    (after : List Text) :
    (ofArguments (before ++ argument :: after)).grammarIndex ≠ some (before.length + 1) := by
  have hfits := Fits.readArguments before .initial rfl Nat.le.refl
  have hbefore : (initial.readArguments 1 before).grammarIndex ≠ some (before.length + 1) := by
    intro hindex
    have hlt := (hfits.grammar _ hindex).2
    omega
  rw [ofArguments, grammarIndex_close, readArguments_append before _ fun _ => rfl,
    Nat.add_comm 1]
  generalize initial.readArguments 1 before = r at hgroup hbefore ⊢
  by_cases hstatus : r.status = .reading
  · rw [resume_of_reading hstatus, readArguments_cons, readArgument_of_groupOf? hgroup]
    have hletters := (Overlooks.readLetters letters).grammarIndex r
    by_cases hended : (r.readLetters letters).status = .reading
    · rw [resume_of_reading hended]
      rcases grammarIndex_readArguments after (r.readLetters letters) (before.length + 1 + 1) with
        hindex | ⟨k, hk, hindex⟩
      · rw [hindex, hletters]
        exact hbefore
      · rw [hindex]
        intro heq
        cases heq
        omega
    · rw [resume_of_ended hended, hletters]
      exact hbefore
  · rw [resume_of_ended hstatus]
    exact hbefore

end Reading

namespace Command

open Reading

variable {m : Type → Type} [Monad m]

/-- The moved place among the separate letters is the place that it had among the groups. -/
theorem getD_moveGrammar {r : Reading} {before after : List Text} {argument plain : Text}
    {last : UInt8} {i : Nat} (hindex : r.grammarIndex = some (i + 1)) (hne : i ≠ before.length) :
    (before ++ separate (plain ++ [last]) ++ after).getD
        ((r.moveGrammar (before.length + 1) plain.length).grammarIndex.getD 0 - 1) [] =
      (before ++ argument :: after).getD (r.grammarIndex.getD 0 - 1) [] := by
  have hmoved : (r.moveGrammar (before.length + 1) plain.length).grammarIndex =
      some (if before.length + 1 < i + 1 then i + 1 + plain.length else i + 1) :=
    congrArg (Option.map _) hindex
  have hlength : (separate (plain ++ [last])).length = plain.length + 1 := by simp [separate]
  rw [hmoved, hindex, Option.getD_some, Option.getD_some, List.getD_eq_getElem?_getD,
    List.getD_eq_getElem?_getD, List.append_assoc, Nat.add_sub_cancel]
  by_cases hi : i < before.length
  · rw [if_neg (by omega), Nat.add_sub_cancel, List.getElem?_append_left hi,
      List.getElem?_append_left hi]
  · obtain ⟨j, rfl⟩ : ∃ j, i = before.length + (j + 1) := ⟨i - before.length - 1, by omega⟩
    have hplace : before.length + (j + 1) + 1 + plain.length - 1 =
        before.length + (plain.length + 1 + j) := by omega
    rw [if_pos (by omega), hplace, List.getElem?_append_right (Nat.le_add_right _ _),
      List.getElem?_append_right (Nat.le_add_right _ _), Nat.add_sub_cancel_left,
      Nat.add_sub_cancel_left, List.getElem?_cons_succ, ← hlength,
      List.getElem?_append_right (Nat.le_add_right _ _), Nat.add_sub_cancel_left]

/-- The command does the same for a group as for its letters, and with the same grammar file. -/
theorem run_separate (host : Host m) {before : List Text} {argument plain : Text} {last : UInt8}
    (hgroup : (initial.readArguments 1 before).groupOf? argument = some (plain ++ [last]))
    (hplain : ∀ letter ∈ plain, isPlain letter = true) (hlast : EndsGroup last)
    (after : List Text) :
    run host (before ++ separate (plain ++ [last]) ++ after) =
      run host (before ++ argument :: after) := by
  have hread : ofArguments (before ++ separate (plain ++ [last]) ++ after) =
      (ofArguments (before ++ argument :: after)).moveGrammar (before.length + 1)
        plain.length := by
    rw [ofArguments, readArguments_group hgroup hplain hlast after]
    exact close_moveGrammar _ _ _
  have hattempt : attempt host (before ++ separate (plain ++ [last]) ++ after) =
      attempt host (before ++ argument :: after) := by
    unfold attempt
    rw [hread]
    refine bind_congr fun _ => ?_
    have hne := grammarIndex_ne_of_groupOf? hgroup after
    rw [status_moveGrammar]
    split
    · rfl
    · rfl
    · rename_i hreading
      obtain ⟨i, file, hindex, -⟩ := exists_grammarFile hreading
      have hi : i ≠ before.length := fun heq => hne (heq ▸ hindex)
      rw [getD_moveGrammar hindex hi]
      rfl
  rw [run, hattempt, run]

end Command

end ShiftReduce
