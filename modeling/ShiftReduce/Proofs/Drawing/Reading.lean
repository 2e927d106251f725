import ShiftReduce.Drawing
import ShiftReduce.Proofs.Grammar.Augmentation

/-!
# ShiftReduce.Proofs.Drawing.Reading

**What the text of a drawing shows.** `Drawing.read?` reads a drawn automaton: its nodes and its
edges, each edge with the node that it leaves, the end that it leads to, its label, and whether it
is dashed. It knows how labels are quoted, and nothing of tables and rows.

`Drawing.Writes` says that a text is read as some statements, whatever follows it. A row is read as
its edges, one for each edge of the row (`Drawing.writes_rowLines`), and a node with its number and
its items as lines. So a drawing is read as the nodes of its states and the edges of its rows
(`Drawing.read?_document`).
-/

namespace ShiftReduce

namespace Drawing

open Text (after? isDigit)

/-! ### Statements -/

/-- Where an edge of a drawn automaton leads. -/
inductive EdgeEnd where
  | accept
  | production (rule : Nat)
  | state (number : Nat)
  deriving DecidableEq

/-- A statement of a drawn automaton. Labels are as a viewer shows them. -/
inductive Statement where
  | node (number : Nat) (label : Text)
  | edge (source : Nat) (target : EdgeEnd) (label : Text) (dashed : Bool)
  deriving DecidableEq

namespace Statement

/-- A solid edge to a state: where it comes from, where it leads, and its label. -/
def solid? : Statement → Option (Nat × Nat × Text)
  | edge source (.state number) label false => some (source, number, label)
  | _ => none

/-- An edge to `acc`: where it comes from, and its label. -/
def accept? : Statement → Option (Nat × Text)
  | edge source .accept label false => some (source, label)
  | _ => none

end Statement

/-! ### Reading -/

/-- The number that a text starts with. -/
def readNumber? (t : Text) : Option (Nat × Text) :=
  (Text.toNat? (t.takeWhile isDigit)).map (·, t.dropWhile isDigit)

/-- What stands before the closing double quote. A backslash takes the next byte as it is, but
before an `n` it makes a new line. -/
def readQuoted? : Text → Option (Text × Text)
  | [] => none
  | b :: rest =>
    if b = 34 then some ([], rest)
    else if b = 92 then
      match rest with
      | [] => none
      | c :: rest => (readQuoted? rest).map fun q => ((if c = 110 then 10 else c) :: q.1, q.2)
    else (readQuoted? rest).map fun q => (b :: q.1, q.2)

/-- The end of an edge: `acc`, a production after an `r`, or a state. -/
def readEnd? (t : Text) : Option (EdgeEnd × Text) :=
  match after? "acc" t with
  | some t => some (.accept, t)
  | none =>
    match after? "r" t with
    | some t => (readNumber? t).map fun q => (.production q.1, q.2)
    | none => (readNumber? t).map fun q => (.state q.1, q.2)

/-- The end of a line with attributes: whether they make the edge dashed. -/
def readClosing? (t : Text) : Option (Bool × Text) :=
  match after? " style=\"dashed\"" t with
  | some t => (after? (Text.line " ];") t).map (true, ·)
  | none => (after? (Text.line " ];") t).map (false, ·)

/-- The attributes of a node or an edge: its label, and whether it is dashed. -/
def readAttributes? (t : Text) : Option ((Text × Bool) × Text) := do
  let t ← after? " [ label" t
  let t ← after? "=" (t.dropWhile Text.isBlank)
  let t ← after? "\"" (t.dropWhile Text.isBlank)
  let (label, t) ← readQuoted? t
  let (dashed, t) ← readClosing? t
  return ((label, dashed), t)

def readStatement? (t : Text) : Option (Statement × Text) := do
  let t ← after? "  " t
  let (number, t) ← readNumber? t
  match after? " -> " t with
  | some t =>
    let (target, t) ← readEnd? t
    let ((label, dashed), t) ← readAttributes? t
    return (.edge number target label dashed, t)
  | none =>
    let ((label, _), t) ← readAttributes? t
    return (.node number label, t)

/-- The statements that a text starts with, and what follows them. -/
def readStatements (t : Text) : List Statement × Text :=
  match readStatement? t with
  | none => ([], t)
  | some (s, rest) =>
    if rest.length < t.length then (s :: (readStatements rest).1, (readStatements rest).2)
    else ([], t)
termination_by t.length

/-- What a drawing of an automaton starts with. -/
def header : Text :=
  "digraph abstract \x7b\n\n  node [shape = doublecircle]; 0 acc;\n  node [shape = circle];\n"

def footer : Text :=
  "\n\x7d\n"

/-- The statements of a drawing of an automaton. -/
def read? (t : Text) : Option (List Statement) := do
  let (statements, t) := readStatements (← after? header t)
  if t = footer then some statements else none

/-! ### Pieces of a statement -/

theorem after?_append (head rest : Text) : after? head (head ++ rest) = some rest := by
  have hprefix : head.isPrefixOf (head ++ rest) = true :=
    List.isPrefixOf_iff_prefix.mpr (List.prefix_append head rest)
  rw [after?, if_pos hprefix, List.drop_left]

theorem ofNat_ne_nil (n : Nat) : Text.ofNat n ≠ [] := by
  rw [Text.ofNat, ne_eq, List.map_eq_nil_iff]
  exact List.ne_nil_of_length_pos Nat.length_toDigits_pos

theorem readNumber?_ofNat (n : Nat) {b : UInt8} (hb : isDigit b = false) (rest : Text) :
    readNumber? (Text.ofNat n ++ b :: rest) = some (n, b :: rest) := by
  have hdrop : (Text.ofNat n ++ b :: rest).dropWhile isDigit = b :: rest := by
    rw [List.dropWhile_append_of_pos fun c hc => Text.isDigit_of_mem_ofNat hc,
      List.dropWhile_cons_of_neg (by simp [hb])]
  have hdigits : (Text.ofNat n).toNat? = some n := by
    rw [Text.toNat?, if_pos, Text.ofDigits_ofNat]
    simp only [Bool.and_eq_true, Bool.not_eq_true', List.isEmpty_eq_false_iff]
    exact ⟨ofNat_ne_nil n, List.all_eq_true.mpr fun c hc => Text.isDigit_of_mem_ofNat hc⟩
  rw [readNumber?, Text.takeWhile_ofNat_append n hb, hdrop, hdigits]
  rfl

theorem readQuoted?_backslash (c : UInt8) (rest : Text) : readQuoted? (92 :: c :: rest) =
    (readQuoted? rest).map fun q => ((if c = 110 then 10 else c) :: q.1, q.2) := by
  rw [readQuoted?.eq_def]
  exact (if_neg (by decide)).trans (if_pos rfl)

theorem readQuoted?_plain {b : UInt8} (hquote : b ≠ 34) (hslash : b ≠ 92) (rest : Text) :
    readQuoted? (b :: rest) = (readQuoted? rest).map fun q => (b :: q.1, q.2) := by
  rw [readQuoted?.eq_def]
  exact (if_neg hquote).trans (if_neg hslash)

/-- A quoted text is read back. -/
theorem readQuoted?_escape (t rest : Text) :
    readQuoted? (escape t ++ rest) = (readQuoted? rest).map fun q => (t ++ q.1, q.2) := by
  induction t with
  | nil => simp [escape]
  | cons b t ih =>
      have hcons : escape (b :: t) = (if b = 34 || b = 92 then [92, b] else [b]) ++ escape t := rfl
      rw [hcons]
      by_cases hb : b = 34 ∨ b = 92
      · have hletter : b ≠ 110 := by
          rcases hb with rfl | rfl <;> decide
        simp only [← Bool.decide_or, hb, decide_true, if_true]
        show readQuoted? (92 :: b :: (escape t ++ rest)) = _
        rw [readQuoted?_backslash, if_neg hletter, ih, Option.map_map]
        rfl
      · simp only [← Bool.decide_or, hb, decide_false, Bool.false_eq_true, if_false]
        show readQuoted? (b :: (escape t ++ rest)) = _
        rw [not_or] at hb
        rw [readQuoted?_plain hb.1 hb.2, ih, Option.map_map]
        rfl

theorem escape_append (t t' : Text) : escape (t ++ t') = escape t ++ escape t' :=
  List.flatMap_append

/-- The labels of an edge are quoted together. -/
theorem labelText_eq (e : DrawnEdge) : labelText e = escape (Text.join "," e.labels) := by
  rw [labelText]
  induction e.labels with
  | nil => rfl
  | cons label labels ih =>
      cases labels with
      | nil => simp [Text.join]
      | cons label' labels =>
          have hjoin : ∀ (a b : Text) (l : List Text),
              Text.join "," (a :: b :: l) = a ++ (Text.ofString "," ++ Text.join "," (b :: l)) :=
            fun a b l => by simp [Text.join, List.intercalate_cons_cons]
          rw [List.map_cons, List.map_cons, hjoin, hjoin, escape_append, escape_append,
            ← List.map_cons, ih]
          rfl

/-- What is quoted ends at the double quote after it. -/
theorem readQuoted?_closed (t rest : Text) :
    readQuoted? (escape t ++ 34 :: rest) = some (t, rest) := by
  have hclose : readQuoted? (34 :: rest) = some ([], rest) := by
    rw [readQuoted?.eq_def]
    exact if_pos rfl
  rw [readQuoted?_escape, hclose]
  simp

/-- A label ends a line, and with it the edge is solid. -/
theorem readAttributes?_solid {quoted label : Text}
    (h : ∀ rest, readQuoted? (quoted ++ 34 :: rest) = some (label, rest)) (rest : Text) :
    readAttributes? (" [ label=\"" ++ (quoted ++ 34 :: (Text.line " ];" ++ rest))) =
      some ((label, false), rest) := by
  show (readQuoted? (quoted ++ 34 :: (Text.line " ];" ++ rest))).bind _ = _
  rw [h]
  rfl

theorem readAttributes?_spaced (label rest : Text) :
    readAttributes? (" [ label = \"" ++ (escape label ++ 34 :: (Text.line " ];" ++ rest))) =
      some ((label, false), rest) := by
  show (readQuoted? (escape label ++ 34 :: (Text.line " ];" ++ rest))).bind _ = _
  rw [readQuoted?_closed]
  rfl

theorem readAttributes?_dashed (label rest : Text) :
    readAttributes? (" [ label=\"" ++ (escape label ++
        34 :: (Text.ofString " style=\"dashed\"" ++ (Text.line " ];" ++ rest)))) =
      some ((label, true), rest) := by
  show (readQuoted? (escape label ++
    34 :: (Text.ofString " style=\"dashed\"" ++ (Text.line " ];" ++ rest)))).bind _ = _
  rw [readQuoted?_closed]
  rfl

theorem after?_ofNat {b : UInt8} (hb : isDigit b = false) (head : Text) (n : Nat) (t : Text) :
    after? (b :: head) (Text.ofNat n ++ t) = none := by
  obtain ⟨d, digits, hdigits⟩ := List.exists_cons_of_ne_nil (ofNat_ne_nil n)
  have hd : isDigit d = true := Text.isDigit_of_mem_ofNat (hdigits ▸ List.mem_cons_self)
  have hne : (b == d) = false := beq_eq_false_iff_ne.mpr fun heq => by simp [heq, hd] at hb
  rw [hdigits, List.cons_append, after?, List.isPrefixOf, hne, Bool.false_and]
  rfl

theorem readEnd?_production (rule : Nat) (t : Text) :
    readEnd? ("r" ++ (Text.ofNat rule ++ 32 :: t)) = some (.production rule, 32 :: t) := by
  show (readNumber? (Text.ofNat rule ++ 32 :: t)).map _ = _
  rw [readNumber?_ofNat rule rfl]
  rfl

theorem readEnd?_state (number : Nat) (t : Text) :
    readEnd? (Text.ofNat number ++ 32 :: t) = some (.state number, 32 :: t) := by
  have hacc : after? "acc" (Text.ofNat number ++ 32 :: t) = none :=
    after?_ofNat rfl _ number _
  have hr : after? "r" (Text.ofNat number ++ 32 :: t) = none := after?_ofNat rfl _ number _
  rw [readEnd?, hacc, hr, readNumber?_ofNat number rfl]
  rfl

/-! ### Lines -/

/-- The text is read as the statements, and then what follows it is read. -/
def Writes (t : Text) (statements : List Statement) : Prop :=
  ∀ rest, readStatements (t ++ rest) =
    (statements ++ (readStatements rest).1, (readStatements rest).2)

theorem Writes.nil : Writes [] [] :=
  fun _ => rfl

theorem Writes.append {t t' : Text} {statements statements' : List Statement}
    (h : Writes t statements) (h' : Writes t' statements') :
    Writes (t ++ t') (statements ++ statements') := by
  intro rest
  rw [List.append_assoc, h, h', List.append_assoc]

theorem Writes.flatMap {α : Type} {l : List α} {text : α → Text} {statements : α → List Statement}
    (h : ∀ x ∈ l, Writes (text x) (statements x)) :
    Writes (l.flatMap text) (l.flatMap statements) := by
  induction l with
  | nil => exact .nil
  | cons x l ih => exact (h x (by simp)).append (ih fun y hy => h y (by simp [hy]))

/-- A text that is read as one statement, whatever follows it. -/
theorem Writes.of_readStatement? {t : Text} {s : Statement}
    (h : ∀ rest, readStatement? (t ++ rest) = some (s, rest)) : Writes t [s] := by
  have hne : t ≠ [] := by
    rintro rfl
    cases h []
  intro rest
  have hlt : rest.length < (t ++ rest).length := by
    have := List.length_pos_iff.mpr hne
    rw [List.length_append]
    omega
  rw [readStatements, h]
  exact if_pos hlt

theorem readStatement?_edge (n : Nat) (t : Text) :
    readStatement? ("  " ++ (Text.ofNat n ++ (" -> " ++ t))) = (do
      let (target, t) ← readEnd? t
      let ((label, dashed), t) ← readAttributes? t
      return (.edge n target label dashed, t)) := by
  have hnumber : readNumber? (Text.ofNat n ++ (" -> " ++ t)) = some (n, " -> " ++ t) :=
    readNumber?_ofNat n rfl _
  show (readNumber? (Text.ofNat n ++ (" -> " ++ t))).bind _ = _
  rw [hnumber]
  rfl

theorem readStatement?_node (n : Nat) (t : Text) :
    readStatement? ("  " ++ (Text.ofNat n ++ (" [ label=\"" ++ t))) = (do
      let ((label, _), t) ← readAttributes? (" [ label=\"" ++ t)
      return (.node n label, t)) := by
  have hnumber : readNumber? (Text.ofNat n ++ (" [ label=\"" ++ t)) =
      some (n, " [ label=\"" ++ t) :=
    readNumber?_ofNat n rfl _
  show (readNumber? (Text.ofNat n ++ (" [ label=\"" ++ t))).bind _ = _
  rw [hnumber]
  rfl

theorem writes_acceptLine (n : Nat) (label : Symbol) :
    Writes (Text.line ("  " ++ Text.ofNat n ++ " -> acc [ label = \"" ++ escape label ++ "\" ];"))
      [.edge n .accept label false] := by
  refine .of_readStatement? fun rest => ?_
  have hline : Text.line ("  " ++ Text.ofNat n ++ " -> acc [ label = \"" ++ escape label ++
      "\" ];") ++ rest = "  " ++ (Text.ofNat n ++ (" -> " ++ ("acc" ++ (" [ label = \"" ++
        (escape label ++ 34 :: (Text.line " ];" ++ rest)))))) := by
    simp only [Text.line, List.append_assoc]
    rfl
  rw [hline, readStatement?_edge]
  show (readAttributes? (" [ label = \"" ++
    (escape label ++ 34 :: (Text.line " ];" ++ rest)))).bind _ = _
  rw [readAttributes?_spaced]
  rfl

theorem writes_reductionLine (n : Nat) (e : DrawnEdge) :
    Writes (Text.line ("  " ++ Text.ofNat n ++ " -> r" ++ Text.ofNat e.target ++ " [ label=\"" ++
        labelText e ++ "\" style=\"dashed\" ];"))
      [.edge n (.production e.target) (Text.join "," e.labels) true] := by
  refine .of_readStatement? fun rest => ?_
  rw [labelText_eq]
  have hline : Text.line ("  " ++ Text.ofNat n ++ " -> r" ++ Text.ofNat e.target ++
      " [ label=\"" ++ escape (Text.join "," e.labels) ++ "\" style=\"dashed\" ];") ++ rest =
      "  " ++ (Text.ofNat n ++ (" -> " ++ ("r" ++ (Text.ofNat e.target ++ (" [ label=\"" ++
        (escape (Text.join "," e.labels) ++
          34 :: (Text.ofString " style=\"dashed\"" ++ (Text.line " ];" ++ rest)))))))) := by
    simp only [Text.line, List.append_assoc]
    rfl
  rw [hline, readStatement?_edge]
  show (readEnd? (Text.ofString "r" ++ (Text.ofNat e.target ++ 32 :: _))).bind _ = _
  rw [readEnd?_production]
  show (readAttributes? (" [ label=\"" ++ (escape (Text.join "," e.labels) ++
    34 :: (Text.ofString " style=\"dashed\"" ++ (Text.line " ];" ++ rest))))).bind _ = _
  rw [readAttributes?_dashed]
  rfl

theorem writes_moveLine (n : Nat) (e : DrawnEdge) :
    Writes (Text.line ("  " ++ Text.ofNat n ++ " -> " ++ Text.ofNat e.target ++ " [ label=\"" ++
        labelText e ++ "\" ];"))
      [.edge n (.state e.target) (Text.join "," e.labels) false] := by
  refine .of_readStatement? fun rest => ?_
  rw [labelText_eq]
  have hline : Text.line ("  " ++ Text.ofNat n ++ " -> " ++ Text.ofNat e.target ++
      " [ label=\"" ++ escape (Text.join "," e.labels) ++ "\" ];") ++ rest =
      "  " ++ (Text.ofNat n ++ (" -> " ++ (Text.ofNat e.target ++ (" [ label=\"" ++
        (escape (Text.join "," e.labels) ++ 34 :: (Text.line " ];" ++ rest)))))) := by
    simp only [Text.line, List.append_assoc]
    rfl
  rw [hline, readStatement?_edge]
  show (readEnd? (Text.ofNat e.target ++ 32 :: _)).bind _ = _
  rw [readEnd?_state]
  show (readAttributes? (" [ label=\"" ++
    (escape (Text.join "," e.labels) ++ 34 :: (Text.line " ];" ++ rest)))).bind _ = _
  rw [readAttributes?_solid (readQuoted?_closed _)]
  rfl

/-- The edges of a state as a viewer shows them. -/
def rowStatements (n : Nat) (d : DrawnRow) : List Statement :=
  d.accepting.map (.edge n .accept · false) ++
    d.reductions.map (fun e => .edge n (.production e.target) (Text.join "," e.labels) true) ++
    d.moves.map fun e => .edge n (.state e.target) (Text.join "," e.labels) false

/-- A row is read as its edges, each with all its labels. -/
theorem writes_rowLines (n : Nat) (d : DrawnRow) : Writes (rowLines n d) (rowStatements n d) := by
  simp only [rowStatements, List.map_eq_flatMap]
  exact ((Writes.flatMap fun label _ => writes_acceptLine n label).append
    (.flatMap fun e _ => writes_reductionLine n e)).append
      (.flatMap fun e _ => writes_moveLine n e)

/-- The label of a state: its number and its items, one in a line. -/
def stateLabel (n : Nat) (items : List Text) : Text :=
  Text.ofNat n ++ items.flatMap (10 :: ·)

theorem escape_ofNat (n : Nat) : escape (Text.ofNat n) = Text.ofNat n := by
  have hplain : ∀ b ∈ Text.ofNat n, (if b = 34 || b = 92 then [92, b] else [b]) = [b] := by
    intro b hb
    have hdigit := Text.isDigit_of_mem_ofNat hb
    refine if_neg fun heq => ?_
    rcases (by simpa using heq : b = 34 ∨ b = 92) with rfl | rfl <;> cases hdigit
  rw [escape, List.flatMap_congr hplain, List.flatMap_singleton']

/-- The items of a state are read as the lines of its label. -/
theorem readQuoted?_stateLabel (n : Nat) (items : List Text) (rest : Text) :
    readQuoted? ((Text.ofNat n ++ items.flatMap fun item => Text.ofString "\\n" ++ escape item) ++
      34 :: rest) = some (stateLabel n items, rest) := by
  have hitems : ∀ rest : Text, readQuoted? (items.flatMap (fun item =>
      Text.ofString "\\n" ++ escape item) ++ rest) =
        (readQuoted? rest).map fun q => (items.flatMap (10 :: ·) ++ q.1, q.2) := by
    intro rest
    induction items with
    | nil => simp
    | cons item items ih =>
        rw [List.flatMap_cons, List.append_assoc, List.append_assoc]
        show readQuoted? (92 :: 110 :: (escape item ++ _)) = _
        rw [readQuoted?_backslash, readQuoted?_escape, ih]
        simp [Option.map_map, Function.comp_def]
  have hclose : readQuoted? (34 :: rest) = some ([], rest) := readQuoted?_closed [] rest
  rw [← escape_ofNat n, List.append_assoc, readQuoted?_escape, hitems, hclose]
  simp [stateLabel]

/-- A state is read as a node with its number and its items. -/
theorem writes_stateLine {gen : Generation} {n : Nat} {items : List Text} {line : Text}
    (hitems : gen.stateLabels n = .ok items) (h : stateLine gen n = .ok line) :
    Writes line [.node n (stateLabel n items)] := by
  rw [stateLine, hitems] at h
  cases h
  refine .of_readStatement? fun rest => ?_
  have hline : Text.line ("  " ++ Text.ofNat n ++ " [ label=\"" ++ Text.ofNat n ++
      (items.flatMap fun item => Text.ofString "\\n" ++ escape item) ++ "\" ];") ++ rest =
      "  " ++ (Text.ofNat n ++ (" [ label=\"" ++ ((Text.ofNat n ++
        items.flatMap fun item => Text.ofString "\\n" ++ escape item) ++
          34 :: (Text.line " ];" ++ rest)))) := by
    simp only [Text.line, List.append_assoc]
    rfl
  show readStatement? (Text.line ("  " ++ Text.ofNat n ++ " [ label=\"" ++ Text.ofNat n ++
    (items.flatMap fun item => Text.ofString "\\n" ++ escape item) ++ "\" ];") ++ rest) = _
  rw [hline, readStatement?_node, readAttributes?_solid (readQuoted?_stateLabel n items)]
  rfl

/-! ### The whole drawing -/

/-- The text of a drawing with the given lines for the states and for the edges. -/
def document (states edges : Text) : Text :=
  header ++ states ++ edges ++ footer

/-- A drawing is read as the nodes and the edges that were written into it. -/
theorem read?_document {states edges : Text} {nodes arrows : List Statement}
    (hstates : Writes states nodes) (hedges : Writes edges arrows) :
    read? (document states edges) = some (nodes ++ arrows) := by
  have hfooter : readStatements footer = ([], footer) := by
    rw [readStatements]
    rfl
  have hbody : readStatements (states ++ edges ++ footer) = (nodes ++ arrows, footer) := by
    rw [hstates.append hedges footer, hfooter, List.append_nil]
  have hdocument : document states edges = header ++ (states ++ edges ++ footer) := by
    rw [document, List.append_assoc, List.append_assoc, ← List.append_assoc states]
  rw [read?, hdocument, after?_append]
  show (if (readStatements (states ++ edges ++ footer)).2 = footer then _ else _) = _
  rw [hbody]
  exact if_pos rfl

end Drawing

end ShiftReduce
