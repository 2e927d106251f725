import ShiftReduce.Proofs.Command.Options

/-!
# ShiftReduce.Proofs.Command.Requests

**Which letters of a command line get the value they ask for.** The reader has one switch pending at
a time, and a group of letters may ask several times before the next argument is read. `Tracking` is
the reader with a record of the letters that asked and of the arguments that served them. It reads
what the reader reads (`Tracking.reading_ofArguments`), and its waiting request is always of the
switch that the reader has pending (`Tracking.agrees`).

Each group that asks is followed by one value, which serves its last request. The other requests of
the group are lost, and no error tells (`Tracking.served_iff`). No request is lost to a later group,
since the value comes before it.
-/

namespace ShiftReduce

/-! ### Letters that ask for a value -/

/-- The switch that a letter asks a value for. -/
def ValueSwitch.ofLetter? (letter : UInt8) : Option ValueSwitch :=
  match Char.ofUInt8 letter with
  | 'k' => some .stepLimit
  | 'o' => some .outputName
  | 'p' => some .parseInput
  | _ => none

/-- A letter that asks for a value. -/
structure ValueRequest where
  /-- The place of its group among the arguments. -/
  argument : Nat
  /-- Its place in the group; the dash is at 0. -/
  letter : Nat
  switch : ValueSwitch
  deriving DecidableEq, Repr

namespace ValueRequest

/-- The request of one letter. -/
def ofLetter? (argument place : Nat) (letter : UInt8) : Option ValueRequest :=
  (ValueSwitch.ofLetter? letter).map (⟨argument, place, ·⟩)

/-- The requests of the letters that stand in a group from a place on. -/
def ofLetters (argument place : Nat) : Text → List ValueRequest
  | [] => []
  | letter :: rest =>
    (ofLetter? argument place letter).toList ++ ofLetters argument (place + 1) rest

variable {n k : Nat} {p : ValueRequest} {letters : Text}

theorem ofLetter?_eq_some {letter : UInt8} : ofLetter? n k letter = some p ↔
    p.argument = n ∧ p.letter = k ∧ ValueSwitch.ofLetter? letter = some p.switch := by
  obtain ⟨argument, place, switch⟩ := p
  simp only [ofLetter?, Option.map_eq_some_iff, mk.injEq]
  constructor
  · rintro ⟨switch', hswitch, rfl, rfl, rfl⟩
    exact ⟨rfl, rfl, hswitch⟩
  · rintro ⟨rfl, rfl, hswitch⟩
    exact ⟨switch, hswitch, rfl, rfl, rfl⟩

theorem mem_ofLetters : p ∈ ofLetters n k letters ↔ p.argument = n ∧
    ∃ i, p.letter = k + i ∧ letters[i]?.bind ValueSwitch.ofLetter? = some p.switch := by
  induction letters generalizing k with
  | nil => simp [ofLetters]
  | cons letter rest ih =>
      rw [ofLetters, List.mem_append, Option.mem_toList, ofLetter?_eq_some, ih, ← and_or_left]
      refine and_congr_right fun _ => ⟨?_, ?_⟩
      · rintro (⟨hplace, hswitch⟩ | ⟨i, hplace, hswitch⟩)
        · exact ⟨0, hplace, hswitch⟩
        · exact ⟨i + 1, by omega, by simpa using hswitch⟩
      · rintro ⟨i, hplace, hswitch⟩
        cases i with
        | zero => exact Or.inl ⟨hplace, by simpa using hswitch⟩
        | succ i => exact Or.inr ⟨i, by omega, by simpa using hswitch⟩

/-- The dash of a group asks for nothing. -/
theorem mem_ofLetters_group : p ∈ ofLetters n 1 letters ↔ p.argument = n ∧
    ((45 :: letters : Text)[p.letter]?).bind ValueSwitch.ofLetter? = some p.switch := by
  rw [mem_ofLetters]
  refine and_congr_right fun _ => ⟨?_, fun hswitch => ?_⟩
  · rintro ⟨i, hplace, hswitch⟩
    rw [hplace, Nat.add_comm, List.getElem?_cons_succ]
    exact hswitch
  · cases hplace : p.letter with
    | zero =>
        have hdash : ValueSwitch.ofLetter? 45 = none := by decide
        rw [hplace, List.getElem?_cons_zero, Option.bind_some, hdash] at hswitch
        cases hswitch
    | succ i =>
        rw [hplace, List.getElem?_cons_succ] at hswitch
        exact ⟨i, Nat.add_comm i 1, hswitch⟩

theorem pairwise_ofLetters (n k : Nat) (letters : Text) :
    (ofLetters n k letters).Pairwise (·.letter < ·.letter) := by
  induction letters generalizing k with
  | nil => exact List.Pairwise.nil
  | cons letter rest ih =>
      rw [ofLetters, List.pairwise_append]
      refine ⟨?_, ih (k + 1), fun p hp q hq => ?_⟩
      · cases ofLetter? n k letter <;> simp
      · have hplace := (ofLetter?_eq_some.mp (Option.mem_toList.mp hp)).2.1
        obtain ⟨-, i, hplace', -⟩ := mem_ofLetters.mp hq
        omega

/-- The last request of a group is the one of its last letter that asks. -/
theorem getLast?_ofLetters_eq_some_iff (hp : p ∈ ofLetters n k letters) :
    (ofLetters n k letters).getLast? = some p ↔
      ∀ q ∈ ofLetters n k letters, q.letter ≤ p.letter := by
  have hordered := pairwise_ofLetters n k letters
  obtain hnil | ⟨init, last, hlast⟩ := (ofLetters n k letters).eq_nil_or_concat
  · exact absurd hnil (List.ne_nil_of_mem hp)
  rw [hlast, List.concat_eq_append] at hp hordered ⊢
  have hbefore : ∀ q ∈ init, q.letter < last.letter := fun q hq =>
    (List.pairwise_append.mp hordered).2.2 q hq last (List.mem_singleton_self last)
  rw [List.getLast?_concat, Option.some_inj]
  constructor
  · rintro rfl q hq
    rcases List.mem_append.mp hq with hq | hq
    · exact Nat.le_of_lt (hbefore q hq)
    · exact Nat.le_of_eq (congrArg letter (List.mem_singleton.mp hq))
  · intro hle
    rcases List.mem_append.mp hp with hp | hp
    · have hlt := hbefore p hp
      have hge := hle last (List.mem_concat_self)
      omega
    · exact (List.mem_singleton.mp hp).symm

theorem getLast?_toList (o : Option ValueRequest) : o.toList.getLast? = o := by
  cases o <;> rfl

end ValueRequest

/-! ### What the reader has pending -/

namespace Reading

theorem pending_takeOutputName (r : Reading) (stem : Text) :
    (r.takeOutputName stem).pending = r.pending := by
  unfold takeOutputName
  split <;> rfl

theorem pending_takeStepLimit (r : Reading) (value : Text) :
    (r.takeStepLimit value).pending = r.pending := by
  unfold takeStepLimit
  repeat' first | rfl | split

theorem pending_takeValue (r : Reading) (switch : ValueSwitch) (value : Text) :
    (r.takeValue switch value).pending = r.pending := by
  cases switch with
  | outputName => exact pending_takeOutputName r value
  | parseInput => rfl
  | stepLimit => exact pending_takeStepLimit r value

theorem pending_readListing (r : Reading) (rest : Text) :
    (r.readListing rest).pending = r.pending := by
  unfold readListing
  split <;> rfl

/-- A letter that asks for a value takes the place of what was pending. -/
theorem pending_readLetter (r : Reading) (letter : UInt8) (rest : Text) :
    (r.readLetter letter rest).pending = (ValueSwitch.ofLetter? letter).or r.pending := by
  unfold readLetter ValueSwitch.ofLetter?
  split
  case h_12 hletter => simp [hletter, pending_readListing]
  case h_13 =>
    simp only [fail]
    split <;> simp_all
  all_goals simp [*, set, finish]

theorem pending_readLong (r : Reading) (argument : Text) :
    (r.readLong argument).pending = r.pending := by
  unfold readLong readValueSwitch
  repeat'
    first
    | rfl
    | exact pending_takeOutputName _ _
    | exact pending_takeStepLimit _ _
    | split

/-- The letters of an argument that has the form of a group. -/
def lettersOf? : Text → Option Text
  | 45 :: 45 :: _ => none
  | 45 :: letter :: letters => some (letter :: letters)
  | _ => none

/-- The letters of an argument that is read as a group. -/
def groupOf? (r : Reading) (argument : Text) : Option Text :=
  if r.pending = none then lettersOf? argument else none

variable {r : Reading} {argument letters : Text}

theorem eq_of_lettersOf? (h : lettersOf? argument = some letters) : argument = 45 :: letters := by
  unfold lettersOf? at h
  split at h
  · cases h
  · exact congrArg (45 :: ·) (Option.some.inj h)
  · cases h

theorem groupOf?_eq_some : r.groupOf? argument = some letters ↔
    r.pending = none ∧ lettersOf? argument = some letters := by
  simp [groupOf?]

theorem readArgument_of_groupOf? (h : r.groupOf? argument = some letters) (n : Nat) :
    r.readArgument n argument = r.readLetters letters := by
  obtain ⟨hpending, hletters⟩ := groupOf?_eq_some.mp h
  unfold readArgument
  simp only [hpending, readFree]
  split
  · simp [lettersOf?] at hletters
  · simp_all [lettersOf?]
  · simp_all [lettersOf?]

/-- Only a group asks for a value, and an argument that is taken as a value leaves none pending. -/
theorem pending_readArgument (h : r.groupOf? argument = none) (n : Nat) :
    (r.readArgument n argument).pending = none := by
  unfold readArgument
  cases hpending : r.pending with
  | some switch => exact pending_takeValue _ switch argument
  | none =>
      simp only [readFree]
      split
      · rw [pending_readLong, hpending]
      · simp_all [groupOf?, lettersOf?]
      · split <;> simp [hpending, fail]

/-- Reads the arguments from a place on, unless the reading has ended. -/
def resume (r : Reading) (n : Nat) (arguments : List Text) : Reading :=
  if r.status = .reading then r.readArguments n arguments else r

theorem resume_of_reading (h : r.status = .reading) (n : Nat) (arguments : List Text) :
    r.resume n arguments = r.readArguments n arguments :=
  if_pos h

theorem resume_of_ended (h : r.status ≠ .reading) (n : Nat) (arguments : List Text) :
    r.resume n arguments = r :=
  if_neg h

theorem readArguments_cons (r : Reading) (n : Nat) (argument : Text) (rest : List Text) :
    r.readArguments n (argument :: rest) = (r.readArgument n argument).resume (n + 1) rest := by
  rw [readArguments, resume]

theorem readArguments_append (arguments rest : List Text) : ∀ {r : Reading} {n : Nat},
    (arguments = [] → r.status = .reading) → r.readArguments n (arguments ++ rest) =
      (r.readArguments n arguments).resume (n + arguments.length) rest := by
  induction arguments with
  | nil =>
      intro r n h
      exact (resume_of_reading (h rfl) n rest).symm
  | cons argument arguments ih =>
      intro r n _
      rw [List.cons_append, readArguments_cons, readArguments_cons, List.length_cons]
      by_cases hstatus : (r.readArgument n argument).status = .reading
      · rw [resume_of_reading hstatus, resume_of_reading hstatus, ih fun _ => hstatus,
          Nat.add_right_comm, Nat.add_assoc]
      · rw [resume_of_ended hstatus, resume_of_ended hstatus, resume_of_ended hstatus]

theorem readArguments_concat (arguments : List Text) (argument : Text) {r : Reading} {n : Nat}
    (h : (r.readArguments n arguments).status = .reading) :
    r.readArguments n (arguments ++ [argument]) =
      (r.readArguments n arguments).readArgument (n + arguments.length) argument := by
  have hnil : arguments = [] → r.status = .reading := fun hnil => by rwa [hnil] at h
  rw [readArguments_append arguments [argument] hnil, resume_of_reading h, readArguments_cons]
  exact ite_self _

theorem pending_close (r : Reading) : r.close.pending = r.pending := by
  unfold close
  repeat' first | rfl | split

/-- At the end of a reading that was not ended nothing is pending. -/
theorem pending_of_close (h : r.close.status = .reading) : r.pending = none := by
  unfold close at h
  split at h
  · cases hpending : r.pending with
    | none => rfl
    | some switch => simp [hpending, fail] at h
  · contradiction

end Reading

/-! ### A record of the requests -/

/-- A reading with a record of who asked for a value and who got one. -/
structure Tracking where
  reading : Reading
  /-- The request that waits for its value. -/
  waiting : Option ValueRequest
  /-- The requests that were made, in order. -/
  asked : List ValueRequest
  /-- The requests that were served, each with the place of its value. -/
  served : List (ValueRequest × Nat)
  agrees : reading.pending = waiting.map ValueRequest.switch

namespace Tracking

/-- The state before the first argument. -/
def initial : Tracking :=
  ⟨.initial, none, [], [], rfl⟩

/-- Reads a letter at a place of the group. A letter that asks drops the request that waits. -/
def readLetter (t : Tracking) (argument place : Nat) (letter : UInt8) (rest : Text) : Tracking where
  reading := t.reading.readLetter letter rest
  waiting := (ValueRequest.ofLetter? argument place letter).or t.waiting
  asked := t.asked ++ (ValueRequest.ofLetter? argument place letter).toList
  served := t.served
  agrees := by
    rw [Reading.pending_readLetter, t.agrees, ValueRequest.ofLetter?]
    cases ValueSwitch.ofLetter? letter <;> rfl

/-- Reads the letters of a group from a place on. -/
def readLetters (t : Tracking) (argument place : Nat) : Text → Tracking
  | [] => t
  | letter :: rest =>
    let next := t.readLetter argument place letter rest
    if next.reading.status = .reading then next.readLetters argument (place + 1) rest else next

/-- Reads the argument at a place. If it is not a group of letters, it serves what waits. -/
def readArgument (t : Tracking) (index : Nat) (argument : Text) : Tracking :=
  match h : t.reading.groupOf? argument with
  | some letters => t.readLetters index 1 letters
  | none =>
    { reading := t.reading.readArgument index argument
      waiting := none
      asked := t.asked
      served := t.served ++ (t.waiting.map (·, index)).toList
      agrees := Reading.pending_readArgument h index }

def readArguments (t : Tracking) (index : Nat) : List Text → Tracking
  | [] => t
  | argument :: rest =>
    let next := t.readArgument index argument
    if next.reading.status = .reading then next.readArguments (index + 1) rest else next

def close (t : Tracking) : Tracking :=
  { t with reading := t.reading.close, agrees := t.reading.pending_close.trans t.agrees }

/-- Reads the arguments after the program's own name. -/
def ofArguments (arguments : List Text) : Tracking :=
  (initial.readArguments 1 arguments).close

/-! ### It reads what the reader reads -/

theorem reading_readLetter (t : Tracking) (n k : Nat) (letter : UInt8) (rest : Text) :
    (t.readLetter n k letter rest).reading = t.reading.readLetter letter rest := by
  rw [readLetter]

theorem reading_readLetters (letters : Text) : ∀ (t : Tracking) (n k : Nat),
    (t.readLetters n k letters).reading = t.reading.readLetters letters := by
  induction letters with
  | nil =>
      intro t n k
      rfl
  | cons letter rest ih =>
      intro t n k
      unfold readLetters Reading.readLetters
      simp only [reading_readLetter]
      split
      · rw [ih, reading_readLetter]
      · exact reading_readLetter t n k letter rest

theorem reading_readArgument (t : Tracking) (n : Nat) (argument : Text) :
    (t.readArgument n argument).reading = t.reading.readArgument n argument := by
  unfold readArgument
  split
  · rename_i letters hletters
    rw [reading_readLetters, Reading.readArgument_of_groupOf? hletters]
  · rfl

theorem reading_readArguments (arguments : List Text) : ∀ (t : Tracking) (n : Nat),
    (t.readArguments n arguments).reading = t.reading.readArguments n arguments := by
  induction arguments with
  | nil =>
      intro t n
      rfl
  | cons argument rest ih =>
      intro t n
      unfold readArguments Reading.readArguments
      simp only [reading_readArgument]
      split
      · rw [ih, reading_readArgument]
      · exact reading_readArgument t n argument

theorem reading_ofArguments (arguments : List Text) :
    (ofArguments arguments).reading = Reading.ofArguments arguments :=
  congrArg Reading.close (reading_readArguments arguments initial 1)

/-! ### What the record says -/

/-- A letter asks if its argument has the form of a group, does not serve a request itself, and has
a letter that asks at this place. -/
def Asks (read : List Text) (served : List (ValueRequest × Nat)) (p : ValueRequest) : Prop :=
  ∃ i argument, p.argument = i + 1 ∧ read[i]? = some argument ∧
    (Reading.lettersOf? argument).isSome ∧ (∀ q, (q, p.argument) ∉ served) ∧
      argument[p.letter]?.bind ValueSwitch.ofLetter? = some p.switch

/-- No later letter of the same group asks. -/
def IsLast (asked : List ValueRequest) (p : ValueRequest) : Prop :=
  ∀ q ∈ asked, q.argument = p.argument → q.letter ≤ p.letter

/-- The invariant of a record of the arguments that were read. -/
structure Records (t : Tracking) (read : List Text) : Prop where
  reading : t.reading = Reading.initial.readArguments 1 read
  asked : ∀ p, p ∈ t.asked ↔ Asks read t.served p
  served : ∀ p n, (p, n) ∈ t.served → p ∈ t.asked ∧ n = p.argument + 1 ∧ n ≤ read.length ∧
    (Reading.initial.readArguments 1 (read.take p.argument)).pending = some p.switch
  waiting : ∀ p, t.waiting = some p → p ∈ t.asked ∧ p.argument = read.length
  isLast : ∀ p ∈ t.asked, IsLast t.asked p ↔ t.waiting = some p ∨ ∃ n, (p, n) ∈ t.served

variable {t : Tracking} {read : List Text} {argument letters : Text} {p : ValueRequest} {n k : Nat}
  {asked later : List ValueRequest} {served served' : List (ValueRequest × Nat)}

theorem Asks.le (h : Asks read served p) : p.argument ≤ read.length := by
  obtain ⟨i, argument, hplace, hread, -⟩ := h
  have hlt := (List.getElem?_eq_some_iff.mp hread).1
  omega

/-- The letters that asked before go on to have asked, and only those of the last argument are
new. -/
theorem asks_concat_iff
    (hserved : ∀ q, ∀ m ≤ read.length, (q, m) ∈ served' ↔ (q, m) ∈ served) :
    Asks (read ++ [argument]) served' p ↔ Asks read served p ∨
      p.argument = read.length + 1 ∧ (Reading.lettersOf? argument).isSome ∧
        (∀ q, (q, p.argument) ∉ served') ∧
          argument[p.letter]?.bind ValueSwitch.ofLetter? = some p.switch := by
  constructor
  · rintro ⟨i, argument', hplace, hread, hletters, hfree, hasks⟩
    rcases Nat.lt_or_ge i read.length with hi | hi
    · rw [List.getElem?_append_left hi] at hread
      refine Or.inl ⟨i, argument', hplace, hread, hletters, fun q hq => hfree q ?_, hasks⟩
      exact (hserved q _ (by omega)).mpr hq
    · have hlt := (List.getElem?_eq_some_iff.mp hread).1
      rw [List.length_append, List.length_singleton] at hlt
      obtain rfl : i = read.length := by omega
      rw [List.getElem?_concat_length] at hread
      obtain rfl := Option.some.inj hread
      exact Or.inr ⟨hplace, hletters, hfree, hasks⟩
  · rintro (h | ⟨hplace, hasks⟩)
    · have hle := h.le
      obtain ⟨i, argument', hplace, hread, hletters, hfree, hasks⟩ := h
      refine ⟨i, argument', hplace, ?_, hletters, fun q hq => hfree q ?_, hasks⟩
      · rw [List.getElem?_append_left (by omega), hread]
      · exact (hserved q _ hle).mp hq
    · exact ⟨read.length, argument, hplace, List.getElem?_concat_length, hasks⟩

theorem isLast_append_left (h : ∀ q ∈ later, q.argument ≠ p.argument) :
    IsLast (asked ++ later) p ↔ IsLast asked p := by
  refine ⟨fun hlast q hq => hlast q (List.mem_append_left _ hq), fun hlast q hq hargument => ?_⟩
  rcases List.mem_append.mp hq with hq | hq
  · exact hlast q hq hargument
  · exact absurd hargument (h q hq)

theorem isLast_append_right (h : ∀ q ∈ asked, q.argument ≠ p.argument) :
    IsLast (asked ++ later) p ↔ IsLast later p := by
  refine ⟨fun hlast q hq => hlast q (List.mem_append_right _ hq), fun hlast q hq hargument => ?_⟩
  rcases List.mem_append.mp hq with hq | hq
  · exact absurd hargument (h q hq)
  · exact hlast q hq hargument

theorem isLast_ofLetters_iff (hp : p ∈ ValueRequest.ofLetters n k letters) :
    IsLast (ValueRequest.ofLetters n k letters) p ↔
      (ValueRequest.ofLetters n k letters).getLast? = some p := by
  have hargument : ∀ q ∈ ValueRequest.ofLetters n k letters, q.argument = p.argument :=
    fun q hq => (ValueRequest.mem_ofLetters.mp hq).1.trans (ValueRequest.mem_ofLetters.mp hp).1.symm
  rw [ValueRequest.getLast?_ofLetters_eq_some_iff hp]
  exact forall₂_congr fun q hq => imp_iff_right (hargument q hq)

/-- The last request of a new group has no later one. Those of earlier groups are as they were. -/
theorem isLast_append_ofLetters_iff (hasked : ∀ q ∈ asked, q.argument < n)
    (hp : p ∈ asked ++ ValueRequest.ofLetters n k letters) :
    IsLast (asked ++ ValueRequest.ofLetters n k letters) p ↔
      (ValueRequest.ofLetters n k letters).getLast? = some p ∨ p ∈ asked ∧ IsLast asked p := by
  have hnew : ∀ q ∈ ValueRequest.ofLetters n k letters, q.argument = n := fun q hq =>
    (ValueRequest.mem_ofLetters.mp hq).1
  rcases List.mem_append.mp hp with hp | hp
  · have hlt := hasked p hp
    have hother : (ValueRequest.ofLetters n k letters).getLast? ≠ some p := by
      intro hlast
      have hplace := hnew p (List.mem_of_getLast? hlast)
      omega
    rw [isLast_append_left (fun q hq => by rw [hnew q hq]; omega), or_iff_right hother,
      and_iff_right hp]
  · have hplace := hnew p hp
    have hother : p ∉ asked := by
      intro hmem
      have hlt := hasked p hmem
      omega
    rw [isLast_append_right (fun q hq => by have := hasked q hq; omega), isLast_ofLetters_iff hp,
      or_iff_left fun h => hother h.1]

/-! ### Reading keeps the record -/

/-- A group that was read to its end has asked with all its letters, and the last request waits. -/
theorem readLetters_of_reading (letters : Text) : ∀ {t : Tracking} {k : Nat},
    (t.readLetters n k letters).reading.status = .reading →
      (t.readLetters n k letters).asked = t.asked ++ ValueRequest.ofLetters n k letters ∧
        (t.readLetters n k letters).waiting =
          (ValueRequest.ofLetters n k letters).getLast?.or t.waiting ∧
        (t.readLetters n k letters).served = t.served := by
  induction letters with
  | nil =>
      intro t k _
      exact ⟨(List.append_nil _).symm, rfl, rfl⟩
  | cons letter rest ih =>
      intro t k h
      unfold readLetters at h ⊢
      by_cases hstatus : (t.readLetter n k letter rest).reading.status = .reading
      · rw [if_pos hstatus] at h ⊢
        obtain ⟨hasked, hwaiting, hserved⟩ := ih h
        refine ⟨?_, ?_, hserved⟩
        · rw [hasked, readLetter, ValueRequest.ofLetters, List.append_assoc]
        · rw [hwaiting, readLetter, ValueRequest.ofLetters, List.getLast?_append, Option.or_assoc,
            ValueRequest.getLast?_toList]
      · rw [if_neg hstatus] at h
        exact absurd h hstatus

/-- An argument that is not read as a group serves what waits. -/
theorem readArgument_of_not_group (hgroup : t.reading.groupOf? argument = none) (n : Nat) :
    (t.readArgument n argument).asked = t.asked ∧ (t.readArgument n argument).waiting = none ∧
      ∀ q m, (q, m) ∈ (t.readArgument n argument).served ↔
        (q, m) ∈ t.served ∨ t.waiting = some q ∧ m = n := by
  unfold readArgument
  split
  · rename_i letters hletters
    rw [hgroup] at hletters
    cases hletters
  · refine ⟨rfl, rfl, fun q m => ?_⟩
    cases t.waiting with
    | none => simp
    | some r => simp [and_comm, eq_comm]

theorem readArgument_of_group (hgroup : t.reading.groupOf? argument = some letters) (n : Nat) :
    t.readArgument n argument = t.readLetters n 1 letters := by
  unfold readArgument
  split
  · rename_i letters' hletters
    rw [hgroup] at hletters
    rw [Option.some.inj hletters]
  · rename_i hnone
    rw [hgroup] at hnone
    cases hnone

namespace Records

theorem initial : Tracking.initial.Records [] where
  reading := rfl
  asked := fun p => by simp [Tracking.initial, Asks]
  served := fun p n h => by cases h
  waiting := fun p h => by cases h
  isLast := fun p h => by cases h

/-- The reading and its record go on together. -/
theorem reading_concat (h : t.Records read) (ht : t.reading.status = .reading)
    (argument : Text) : (t.readArgument (read.length + 1) argument).reading =
      Reading.initial.readArguments 1 (read ++ [argument]) := by
  have hstatus := h.reading ▸ ht
  rw [reading_readArgument, Reading.readArguments_concat read argument hstatus, ← h.reading,
    Nat.add_comm]

/-- What a request waits for is settled before its value is read. -/
theorem served_concat (h : t.Records read) (hp : (p, n) ∈ t.served) (argument : Text) :
    p ∈ t.asked ∧ n = p.argument + 1 ∧ n ≤ (read ++ [argument]).length ∧
      (Reading.initial.readArguments 1 ((read ++ [argument]).take p.argument)).pending =
        some p.switch := by
  obtain ⟨hmem, hn, hle, hpending⟩ := h.served p n hp
  refine ⟨hmem, hn, ?_, ?_⟩
  · rw [List.length_append]
    omega
  · rw [List.take_append_of_le_length (by omega), hpending]

theorem readGroup (h : t.Records read) (ht : t.reading.status = .reading)
    (hgroup : t.reading.groupOf? argument = some letters)
    (hstatus : (t.readArgument (read.length + 1) argument).reading.status = .reading) :
    (t.readArgument (read.length + 1) argument).Records (read ++ [argument]) := by
  rw [readArgument_of_group hgroup] at hstatus ⊢
  obtain ⟨hpending, hletters⟩ := Reading.groupOf?_eq_some.mp hgroup
  obtain ⟨hasked, hwaiting, hserved⟩ := readLetters_of_reading letters hstatus
  have hnone : t.waiting = none := by rwa [t.agrees, Option.map_eq_none_iff] at hpending
  rw [hnone, Option.or_none] at hwaiting
  have hbefore : ∀ q ∈ t.asked, q.argument ≤ read.length := fun q hq => ((h.asked q).mp hq).le
  constructor
  case reading =>
    rw [← readArgument_of_group hgroup]
    exact h.reading_concat ht argument
  case asked =>
    intro p
    have hfree : p.argument = read.length + 1 → ∀ q, (q, p.argument) ∉ t.served := by
      intro hplace q hq
      have hle := (h.served q _ hq).2.2.1
      omega
    rw [hasked, hserved, List.mem_append, asks_concat_iff (fun _ _ _ => Iff.rfl), h.asked p,
      ValueRequest.mem_ofLetters_group, ← Reading.eq_of_lettersOf? hletters, hletters]
    refine or_congr_right (and_congr_right fun hplace => ?_)
    simp [hfree hplace]
  case served =>
    intro p n hp
    rw [hserved] at hp
    obtain ⟨hmem, hvalue⟩ := h.served_concat hp argument
    exact ⟨hasked ▸ List.mem_append_left _ hmem, hvalue⟩
  case waiting =>
    intro p hp
    have hmem := List.mem_of_getLast? (hwaiting ▸ hp)
    refine ⟨hasked ▸ List.mem_append_right _ hmem, ?_⟩
    rw [(ValueRequest.mem_ofLetters.mp hmem).1, List.length_append, List.length_singleton]
  case isLast =>
    intro p hp
    have hearlier : p ∈ t.asked ∧ IsLast t.asked p ↔ ∃ n, (p, n) ∈ t.served := by
      refine ⟨fun ⟨hmem, hlast⟩ => ?_, fun ⟨n, hn⟩ => ?_⟩
      · simpa [hnone] using (h.isLast p hmem).mp hlast
      · have hmem := (h.served p n hn).1
        exact ⟨hmem, (h.isLast p hmem).mpr (Or.inr ⟨n, hn⟩)⟩
    rw [hasked] at hp ⊢
    rw [hwaiting, hserved, ← hearlier]
    exact isLast_append_ofLetters_iff (fun q hq => Nat.lt_succ_of_le (hbefore q hq)) hp

theorem readOther (h : t.Records read) (ht : t.reading.status = .reading)
    (hgroup : t.reading.groupOf? argument = none) :
    (t.readArgument (read.length + 1) argument).Records (read ++ [argument]) := by
  obtain ⟨hasked, hwaiting, hserved⟩ := readArgument_of_not_group hgroup (read.length + 1)
  constructor
  case reading => exact h.reading_concat ht argument
  case asked =>
    intro p
    have hearlier : ∀ q, ∀ m ≤ read.length,
        (q, m) ∈ (t.readArgument (read.length + 1) argument).served ↔ (q, m) ∈ t.served := by
      intro q m hm
      rw [hserved]
      refine or_iff_left ?_
      rintro ⟨-, rfl⟩
      omega
    rw [hasked, h.asked p, asks_concat_iff hearlier]
    -- an argument that has the form of a group and is not read as one serves a request
    refine (or_iff_left ?_).symm
    rintro ⟨hplace, hletters, hfree, -⟩
    obtain ⟨letters, hletters⟩ := Option.isSome_iff_exists.mp hletters
    cases hwaits : t.waiting with
    | some q => exact hfree q ((hserved q _).mpr (Or.inr ⟨hwaits, hplace⟩))
    | none =>
        have hpending : t.reading.pending = none := by rw [t.agrees, hwaits, Option.map_none]
        rw [Reading.groupOf?_eq_some.mpr ⟨hpending, hletters⟩] at hgroup
        cases hgroup
  case served =>
    intro p n hp
    rw [hasked]
    rcases (hserved p n).mp hp with hp | ⟨hwaits, rfl⟩
    · exact h.served_concat hp argument
    · obtain ⟨hmem, hplace⟩ := h.waiting p hwaits
      refine ⟨hmem, by omega, by simp, ?_⟩
      rw [hplace, List.take_left, ← h.reading, t.agrees, hwaits, Option.map_some]
  case waiting =>
    intro p hp
    rw [hwaiting] at hp
    cases hp
  case isLast =>
    intro p hp
    rw [hasked] at hp ⊢
    rw [h.isLast p hp, hwaiting]
    simp [hserved, exists_or, or_comm]

theorem readArgument (h : t.Records read) (ht : t.reading.status = .reading)
    (hstatus : (t.readArgument (read.length + 1) argument).reading.status = .reading) :
    (t.readArgument (read.length + 1) argument).Records (read ++ [argument]) := by
  cases hgroup : t.reading.groupOf? argument with
  | some letters => exact h.readGroup ht hgroup hstatus
  | none => exact h.readOther ht hgroup

theorem readArguments (arguments : List Text) : ∀ {t : Tracking} {read : List Text},
    t.Records read → t.reading.status = .reading →
      (t.readArguments (read.length + 1) arguments).reading.status = .reading →
        (t.readArguments (read.length + 1) arguments).Records (read ++ arguments) := by
  induction arguments with
  | nil =>
      intro t read h _ _
      rwa [List.append_nil]
  | cons argument rest ih =>
      intro t read h ht hreading
      unfold Tracking.readArguments at hreading ⊢
      by_cases hstatus : (t.readArgument (read.length + 1) argument).reading.status = .reading
      · rw [if_pos hstatus] at hreading ⊢
        have hnext := h.readArgument ht hstatus
        have hlength : read.length + 1 + 1 = (read ++ [argument]).length + 1 := by simp
        rw [hlength] at hreading ⊢
        rw [List.append_cons read argument rest]
        exact ih hnext hstatus hreading
      · rw [if_neg hstatus] at hreading
        exact absurd hreading hstatus

end Records

theorem close_eq (h : t.reading.close = t.reading) : t.close = t := by
  cases t
  simp_all [close]

/-- The record of a command line that was read to its end. Nothing waits there. -/
theorem records_ofArguments {arguments : List Text}
    (h : (Reading.ofArguments arguments).status = .reading) :
    (ofArguments arguments).Records arguments ∧ (ofArguments arguments).waiting = none := by
  have hread := reading_readArguments arguments initial 1
  have hclose : ((initial.readArguments 1 arguments).reading.close).status = .reading := by
    rw [hread]
    exact h
  have hstatus : (initial.readArguments 1 arguments).reading.status = .reading := by
    rwa [(Reading.close_inv hclose).1] at hclose
  have hrecords := Records.readArguments arguments Records.initial rfl hstatus
  have hpending := Reading.pending_of_close hclose
  rw [agrees, Option.map_eq_none_iff] at hpending
  rw [ofArguments, close_eq (Reading.close_inv hclose).1]
  exact ⟨hrecords, hpending⟩

/-- **Which requests are served.** If a command line is read to its end, then a letter has asked for
a value wherever one stands in a group that is not itself a value. It is served if and only if no
later letter of its group asks, and then by the next argument. -/
theorem served_iff {arguments : List Text}
    (h : (Reading.ofArguments arguments).status = .reading) :
    (ofArguments arguments).reading = Reading.ofArguments arguments ∧
      (∀ p, p ∈ (ofArguments arguments).asked ↔
        Asks arguments (ofArguments arguments).served p) ∧
      (∀ p ∈ (ofArguments arguments).asked,
        (∃ n, p.argument < n ∧ (p, n) ∈ (ofArguments arguments).served) ↔
          ∀ q ∈ (ofArguments arguments).asked, q.argument = p.argument → q.letter ≤ p.letter) ∧
      ∀ p n, (p, n) ∈ (ofArguments arguments).served →
        p ∈ (ofArguments arguments).asked ∧ n = p.argument + 1 ∧ n ≤ arguments.length ∧
          (Reading.initial.readArguments 1 (arguments.take p.argument)).pending =
            some p.switch := by
  obtain ⟨hrecords, hwaiting⟩ := records_ofArguments h
  refine ⟨reading_ofArguments arguments, hrecords.asked, fun p hp => ?_, hrecords.served⟩
  have hlast := hrecords.isLast p hp
  rw [hwaiting, or_iff_right (Option.some_ne_none p).symm] at hlast
  refine Iff.trans ⟨fun ⟨n, _, hn⟩ => ⟨n, hn⟩, fun ⟨n, hn⟩ => ⟨n, ?_, hn⟩⟩ hlast.symm
  have hplace := (hrecords.served p n hn).2.1
  omega

/-- In `-vp x -ko name g.txt` the text `x` serves the request of `p`. -/
theorem served_vp :
    (Reading.ofArguments ["-vp", "x", "-ko", "name", "g.txt"]).status = .reading ∧
      ∃ n, 1 < n ∧ (⟨1, 2, .parseInput⟩, n) ∈
        (ofArguments ["-vp", "x", "-ko", "name", "g.txt"]).served := by
  have hstatus : (Reading.ofArguments ["-vp", "x", "-ko", "name", "g.txt"]).status = .reading := by
    decide +kernel
  have hasked : (ofArguments ["-vp", "x", "-ko", "name", "g.txt"]).asked =
      [⟨1, 2, .parseInput⟩, ⟨3, 1, .stepLimit⟩, ⟨3, 2, .outputName⟩] := by decide +kernel
  refine ⟨hstatus, ((served_iff hstatus).2.2.1 ⟨1, 2, .parseInput⟩ ?_).mpr ?_⟩
  · rw [hasked]
    exact List.mem_cons_self
  · rw [hasked]
    decide

/-- In `-pk 50 g.txt` the request of `p` is lost: `50` is the step limit, there is nothing to parse,
and no error. -/
theorem request_of_pk_dropped :
    (Reading.ofArguments ["-pk", "50", "g.txt"]).status = .reading ∧
      (Reading.ofArguments ["-pk", "50", "g.txt"]).parseInput = none ∧
      ⟨1, 1, .parseInput⟩ ∈ (ofArguments ["-pk", "50", "g.txt"]).asked ∧
      ∀ n, (⟨1, 1, .parseInput⟩, n) ∉ (ofArguments ["-pk", "50", "g.txt"]).served := by
  have hserved : (ofArguments ["-pk", "50", "g.txt"]).served = [(⟨1, 2, .stepLimit⟩, 2)] := by
    decide +kernel
  refine ⟨by decide +kernel, by decide +kernel, by decide +kernel, fun n => ?_⟩
  simp [hserved]

end Tracking

end ShiftReduce
