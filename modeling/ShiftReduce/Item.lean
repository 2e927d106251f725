import ShiftReduce.Grammar
import ShiftReduce.Saturation

/-!
# Items, closure and goto

An item is a production with a marker in its right-hand side. It *scans* the symbol after the
marker, and it is *final* if there is none.

The closure of a set of items adds `B -> . γ` for every production of every non-terminal `B` that
some member scans. The goto of a set on a symbol moves the marker over that symbol wherever it is
scanned, and closes the result.

An item may name a production that does not exist. Such an item scans nothing and is not final, so
that closure and goto are defined on every set; `closureOf`, `gotoOf` and `scannedSymbolsOf` refuse
it instead.
-/

namespace ShiftReduce

/-- A production, by number, with a marker before the symbol at that place. -/
structure Item where
  rule : Nat
  /-- Number of right-hand side symbols before the marker. -/
  marker : Nat
  deriving DecidableEq, Repr

namespace Item

/-- Items are ordered by production, then by marker. -/
instance : Ord Item := ⟨compareLex (compareOn Item.rule) (compareOn Item.marker)⟩

instance : Std.TransOrd Item :=
  inferInstanceAs (Std.TransCmp (compareLex (compareOn Item.rule) (compareOn Item.marker)))

instance : Std.LawfulEqOrd Item where
  eq_of_compare {a b} h := by
    have h' : (compare a.rule b.rule).then (compare a.marker b.marker) = .eq := h
    obtain ⟨hr, hm⟩ := Ordering.then_eq_eq.1 h'
    cases a; cases b
    cases Std.LawfulEqOrd.eq_of_compare hr
    cases Std.LawfulEqOrd.eq_of_compare hm
    rfl

/-- The item with its marker one symbol further. -/
def advance (i : Item) : Item :=
  ⟨i.rule, i.marker + 1⟩

end Item

/-- A finite set of items, listed by production and marker. -/
abbrev ItemSet := Std.ExtTreeSet Item

namespace Grammar

/-! ### Single items -/

/-- The symbol after the marker. -/
def scanned? (g : Grammar) (i : Item) : Option Symbol :=
  (g.rule? i.rule).bind (·.rhs[i.marker]?)

/-- Whether the marker is at the end of the production, or beyond it. -/
def isFinal (g : Grammar) (i : Item) : Bool :=
  (g.rule? i.rule).any (·.rhs.length ≤ i.marker)

/-- Whether this is the goal production with its marker at the end. -/
def isAccepting (g : Grammar) (i : Item) : Bool :=
  i.rule == 0 && g.isFinal i

def itemText (g : Grammar) (i : Item) : Except Missing Text :=
  (·.toTextAt i.marker) <$> g.rule i.rule

/-! ### Closure and goto -/

/-- The symbols that some item of the set scans. -/
def scannedSet (g : Grammar) (items : ItemSet) : SymbolSet :=
  .ofList (items.toList.filterMap g.scanned?)

/-- The items at the start of the productions of the given symbols. -/
def startItems (g : Grammar) (symbols : SymbolSet) : List Item :=
  (g.rules.zipIdx.filter fun (p, _) => symbols.contains p.lhs).map fun (_, id) => ⟨id, 0⟩

/-- Adds the items at the start of the productions of every scanned symbol. -/
def predict (g : Grammar) (items : ItemSet) : ItemSet :=
  items.insertMany (g.startItems (g.scannedSet items))

/-- The least set that holds the given items and their predictions. A round that changes the set
adds the start of a production, so there are no more rounds than productions. -/
def closure (g : Grammar) (items : ItemSet) : ItemSet :=
  saturate g.predict g.rules.length items

/-- The items that scan `symbol`, with the marker moved over it. -/
def advanceOver (g : Grammar) (items : ItemSet) (symbol : Symbol) : ItemSet :=
  .ofList ((items.toList.filter fun i => g.scanned? i = some symbol).map Item.advance)

/-- The closure of the items moved over `symbol`; empty if none scans it. -/
def goto (g : Grammar) (items : ItemSet) (symbol : Symbol) : ItemSet :=
  g.closure (g.advanceOver items symbol)

/-- The scanned symbols in the order in which they are followed: the start symbol, the other
non-terminals, the terminals, each group in byte order. -/
def scannedSymbols (g : Grammar) (items : ItemSet) : List Symbol :=
  let symbols := (g.scannedSet items).toList
  symbols.filter (· == g.start) ++
    symbols.filter (fun s => s != g.start && g.isNonTerminal s) ++
    symbols.filter (!g.isNonTerminal ·)

/-! ### Sets that may name unknown productions -/

/-- Refuses the first listed item whose production does not exist. -/
def checkItems (g : Grammar) (items : List Item) : Except Missing Unit :=
  match items.find? fun i => (g.rule? i.rule).isNone with
  | some i => .error (.rule i.rule)
  | none => .ok ()

/-- The closure of a set of items. Of several unknown productions the last is reported. -/
def closureOf (g : Grammar) (items : ItemSet) : Except Missing ItemSet := do
  g.checkItems items.toList.reverse
  return g.closure items

/-- The goto of a set of items. Of several unknown productions the first is reported. -/
def gotoOf (g : Grammar) (items : ItemSet) (symbol : Symbol) : Except Missing ItemSet := do
  g.checkItems items.toList
  return g.goto items symbol

/-- The symbols scanned in a set of items, in the order in which they are followed. Of several
unknown productions the first is reported. -/
def scannedSymbolsOf (g : Grammar) (items : ItemSet) : Except Missing (List Symbol) := do
  g.checkItems items.toList
  return g.scannedSymbols items

end Grammar

end ShiftReduce
