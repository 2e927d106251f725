import Mathlib.Logic.Relation
import ShiftReduce.Proofs.Grammar

/-!
# ShiftReduce.Proofs.Derivation

**Derivations and parse trees** of a grammar, the two things that a run of the engine is measured
against.

* `Grammar.Derives` is the reflexive and transitive closure of rewriting one symbol by a production.
* `ParseTree` is a tree with a production number at every inner node. `ParseTree.Fits` says that
  every node agrees with the production that it names, and `ParseTree.Parses` adds the symbol at the
  root and the leaves.

The two describe the same sentences: a tree that fits derives its leaves (`ParseTree.Fits.derives`),
and a string of terminals that is derived has a tree (`Grammar.Derives.exists_parses`).
-/

namespace ShiftReduce

/-! ### Derivations -/

namespace Grammar

/-- A production replaces one occurrence of its left-hand side. -/
inductive Rewrites (g : Grammar) : List Symbol → List Symbol → Prop
  | intro (before after : List Symbol) {p : Production} (hp : p ∈ g.rules) :
    g.Rewrites (before ++ p.lhs :: after) (before ++ p.rhs ++ after)

/-- The second string is reached from the first by replacing symbols. -/
def Derives (g : Grammar) : List Symbol → List Symbol → Prop :=
  Relation.ReflTransGen g.Rewrites

variable {g : Grammar}

namespace Rewrites

theorem append_left {u v : List Symbol} (h : g.Rewrites u v) (w : List Symbol) :
    g.Rewrites (w ++ u) (w ++ v) := by
  obtain ⟨before, after, hp⟩ := h
  simpa [List.append_assoc] using Rewrites.intro (w ++ before) after hp

theorem append_right {u v : List Symbol} (h : g.Rewrites u v) (w : List Symbol) :
    g.Rewrites (u ++ w) (v ++ w) := by
  obtain ⟨before, after, hp⟩ := h
  simpa [List.append_assoc] using Rewrites.intro before (after ++ w) hp

/-- Rewriting never brings the goal symbol in. -/
theorem goal_notMem {u v : List Symbol} (h : g.Rewrites u v) (hu : Symbol.goal ∉ u) :
    Symbol.goal ∉ v := by
  obtain ⟨before, after, hp⟩ := h
  simp only [List.mem_append, List.mem_cons, not_or] at hu ⊢
  exact ⟨⟨hu.1, goal_notMem_rhs hp⟩, hu.2.2⟩

end Rewrites

namespace Derives

theorem refl (u : List Symbol) : g.Derives u u := Relation.ReflTransGen.refl

theorem trans {u v w : List Symbol} (h₁ : g.Derives u v) (h₂ : g.Derives v w) : g.Derives u w :=
  Relation.ReflTransGen.trans h₁ h₂

theorem append_left {u v : List Symbol} (h : g.Derives u v) (w : List Symbol) :
    g.Derives (w ++ u) (w ++ v) := by
  induction h with
  | refl => exact .refl _
  | tail _ hstep ih => exact Relation.ReflTransGen.tail ih (hstep.append_left w)

theorem append_right {u v : List Symbol} (h : g.Derives u v) (w : List Symbol) :
    g.Derives (u ++ w) (v ++ w) := by
  induction h with
  | refl => exact .refl _
  | tail _ hstep ih => exact Relation.ReflTransGen.tail ih (hstep.append_right w)

theorem append {u u' v v' : List Symbol} (h₁ : g.Derives u u') (h₂ : g.Derives v v') :
    g.Derives (u ++ v) (u' ++ v') :=
  (h₁.append_right v).trans (h₂.append_left u')

/-- A production derives its right-hand side. -/
theorem of_rule {p : Production} (hp : p ∈ g.rules) : g.Derives [p.lhs] p.rhs :=
  Relation.ReflTransGen.single (by simpa using Rewrites.intro [] [] hp)

end Derives

end Grammar

/-! ### Parse trees -/

/-- A parse tree: a symbol that was read, or a production with a tree for every symbol of its
right-hand side. -/
inductive ParseTree where
  | leaf (symbol : Symbol)
  /-- The left-hand side of a production, over the trees of its right-hand side. -/
  | node (rule : Nat) (symbol : Symbol) (children : List ParseTree)

namespace ParseTree

/-- The symbol at the root. -/
def symbol : ParseTree → Symbol
  | .leaf symbol => symbol
  | .node _ symbol _ => symbol

mutual

/-- The leaves from left to right. An inner node without children adds none. -/
def yield : ParseTree → List Symbol
  | .leaf symbol => [symbol]
  | .node _ _ children => yields children

/-- The leaves of a list of trees. -/
def yields : List ParseTree → List Symbol
  | [] => []
  | t :: ts => yield t ++ yields ts

end

mutual

/-- The number of nodes, leaves included. -/
def size : ParseTree → Nat
  | .leaf _ => 1
  | .node _ _ children => sizes children + 1

/-- The number of nodes of a list of trees. -/
def sizes : List ParseTree → Nat
  | [] => 0
  | t :: ts => size t + sizes ts

end

@[simp] theorem yields_append (ts us : List ParseTree) :
    yields (ts ++ us) = yields ts ++ yields us := by
  induction ts with
  | nil => simp [yields]
  | cons t ts ih => simp [yields, ih]

theorem yields_eq_flatten (ts : List ParseTree) : yields ts = (ts.map yield).flatten := by
  induction ts with
  | nil => rfl
  | cons t ts ih => rw [yields, ih, List.map_cons, List.flatten_cons]

@[simp] theorem sizes_append (ts us : List ParseTree) :
    sizes (ts ++ us) = sizes ts + sizes us := by
  induction ts with
  | nil => simp [sizes]
  | cons t ts ih => simp [sizes, ih, Nat.add_assoc]

theorem length_le_sizes (ts : List ParseTree) : ts.length ≤ sizes ts := by
  induction ts with
  | nil => exact Nat.le_refl 0
  | cons t ts ih =>
      have hpos : 1 ≤ t.size := by cases t <;> simp [size]
      rw [sizes, List.length_cons]
      omega

/-- Every node agrees with the grammar: a leaf is a terminal, and an inner node has the left-hand
side of a declared production over the symbols of its right-hand side. -/
inductive Fits (g : Grammar) : ParseTree → Prop
  | leaf {symbol : Symbol} (h : symbol ∈ g.terminals) : Fits g (.leaf symbol)
  | node {rule : Nat} {p : Production} {children : List ParseTree} (hrule : 1 ≤ rule)
      (hp : g.rule? rule = some p) (hrhs : p.rhs = children.map symbol)
      (hchildren : ∀ child ∈ children, Fits g child) : Fits g (.node rule p.lhs children)

/-- The tree is a parse tree of `s` for the string `w`. -/
structure Parses (g : Grammar) (t : ParseTree) (s : Symbol) (w : List Symbol) : Prop where
  fits : t.Fits g
  symbol_eq : t.symbol = s
  yield_eq : t.yield = w

variable {g : Grammar}

/-- The leaves of a list of trees, each of whose leaves are terminals, are terminals. -/
theorem mem_terminals_of_mem_yields {ts : List ParseTree}
    (h : ∀ t ∈ ts, ∀ s ∈ t.yield, s ∈ g.terminals) : ∀ s ∈ yields ts, s ∈ g.terminals := by
  induction ts with
  | nil => simp [yields]
  | cons t ts ih =>
      intro s hs
      simp only [yields, List.mem_append] at hs
      rcases hs with hs | hs
      · exact h t (by simp) s hs
      · exact ih (fun u hu => h u (by simp [hu])) s hs

/-- The leaves of a tree that fits are terminals. -/
theorem Fits.mem_terminals {t : ParseTree} (h : t.Fits g) : ∀ s ∈ t.yield, s ∈ g.terminals := by
  induction h with
  | leaf h => simpa [yield] using h
  | node _ _ _ _ ih => simpa [yield] using mem_terminals_of_mem_yields ih

/-- Trees that derive their leaves do so side by side. -/
theorem derives_yields {ts : List ParseTree} (h : ∀ t ∈ ts, g.Derives [t.symbol] t.yield) :
    g.Derives (ts.map symbol) (yields ts) := by
  induction ts with
  | nil => exact .refl _
  | cons t ts ih =>
      have hhead : g.Derives [t.symbol] t.yield := h t (by simp)
      have htail := ih fun u hu => h u (by simp [hu])
      simpa [yields] using hhead.append htail

/-- A tree that fits derives its leaves from its root. -/
theorem Fits.derives {t : ParseTree} (h : t.Fits g) : g.Derives [t.symbol] t.yield := by
  induction h with
  | leaf _ => exact .refl _
  | @node rule p children _ hp hrhs _ ih =>
      have hrule : g.Derives [p.lhs] p.rhs := .of_rule (Grammar.mem_rules_of_rule? hp)
      rw [hrhs] at hrule
      simpa [symbol, yield] using hrule.trans (derives_yields ih)

theorem Parses.derives {t : ParseTree} {s : Symbol} {w : List Symbol} (h : t.Parses g s w) :
    g.Derives [s] w := by
  simpa [h.symbol_eq, h.yield_eq] using h.fits.derives

end ParseTree

/-! ### Every derivation of terminals has a tree -/

namespace Grammar

open ParseTree

variable {g : Grammar}

/-- The trees of a string of terminals that was not rewritten. -/
theorem exists_leaves {w : List Symbol} (hw : ∀ s ∈ w, s ∈ g.terminals) :
    ∃ ts : List ParseTree, ts.map symbol = w ∧ yields ts = w ∧ ∀ t ∈ ts, t.Fits g := by
  refine ⟨w.map .leaf, ?_, ?_, ?_⟩
  · simp [Function.comp_def, symbol]
  · clear hw
    induction w with
    | nil => rfl
    | cons s w ih => simp [yields, yield, ih]
  · simp only [List.mem_map]
    rintro t ⟨s, hs, rfl⟩
    exact .leaf (hw s hs)

/-- Undoing one rewriting folds the trees of the right-hand side into one, which adds a node. -/
theorem Rewrites.fold {u v : List Symbol} (h : g.Rewrites u v) (hu : Symbol.goal ∉ u)
    {ts : List ParseTree} (hsymbols : ts.map symbol = v) (hfits : ∀ t ∈ ts, t.Fits g) :
    ∃ us : List ParseTree, us.map symbol = u ∧ yields us = yields ts ∧
      sizes us = sizes ts + 1 ∧ ∀ t ∈ us, t.Fits g := by
  obtain ⟨before, after, hp⟩ := h
  rename_i p
  obtain ⟨front, right, rfl, hfront, hright⟩ := List.map_eq_append_iff.mp hsymbols
  obtain ⟨left, children, rfl, hleft, hchildren⟩ := List.map_eq_append_iff.mp hfront
  obtain ⟨rule, hrule⟩ := exists_rule?_of_mem hp
  -- the goal production is not in use, since its left-hand side is not in the string
  have hpos : 1 ≤ rule := by
    rcases Nat.eq_zero_or_pos rule with rfl | hpos
    · rw [rule?_zero, Option.some_inj] at hrule
      subst hrule
      simp [goalRule] at hu
    · exact hpos
  have hnode : (ParseTree.node rule p.lhs children).Fits g :=
    .node hpos hrule hchildren.symm fun t ht => hfits t (by simp [ht])
  refine ⟨left ++ .node rule p.lhs children :: right, ?_, ?_, ?_, ?_⟩
  · simp [hleft, hright, symbol]
  · simp [yields, yield]
  · simp only [sizes_append, sizes, size]
    omega
  · intro t ht
    rcases List.mem_append.mp ht with ht | ht
    · exact hfits t (by simp [ht])
    · rcases List.mem_cons.mp ht with rfl | ht
      · exact hnode
      · exact hfits t (by simp [ht])

/-- A derivation, read backwards, adds the same number of nodes to all trees that it is folded
around. -/
theorem Derives.exists_fold {u v : List Symbol} (h : g.Derives u v) (hu : Symbol.goal ∉ u) :
    ∃ n, ∀ ts : List ParseTree, ts.map symbol = v → (∀ t ∈ ts, t.Fits g) →
      ∃ us : List ParseTree, us.map symbol = u ∧ yields us = yields ts ∧
        sizes us = sizes ts + n ∧ ∀ t ∈ us, t.Fits g := by
  induction h using Relation.ReflTransGen.head_induction_on with
  | refl => exact ⟨0, fun ts hts hfits => ⟨ts, hts, rfl, rfl, hfits⟩⟩
  | head hstep _ ih =>
      obtain ⟨n, hn⟩ := ih (hstep.goal_notMem hu)
      refine ⟨n + 1, fun ts hts hfits => ?_⟩
      obtain ⟨vs, hvs, hyields, hsizes, hfits⟩ := hn ts hts hfits
      obtain ⟨us, hus, hyields', hsizes', hfits⟩ := hstep.fold hu hvs hfits
      exact ⟨us, hus, hyields'.trans hyields, by omega, hfits⟩

/-- A derivation of terminals, read backwards, builds a tree for every symbol it starts with. -/
theorem Derives.exists_forest {u w : List Symbol} (h : g.Derives u w) (hu : Symbol.goal ∉ u)
    (hw : ∀ s ∈ w, s ∈ g.terminals) :
    ∃ ts : List ParseTree, ts.map symbol = u ∧ yields ts = w ∧ ∀ t ∈ ts, t.Fits g := by
  obtain ⟨n, hfold⟩ := h.exists_fold hu
  obtain ⟨leaves, hleaves, hyield, hfits⟩ := exists_leaves hw
  obtain ⟨ts, hts, hyields, -, hfits⟩ := hfold leaves hleaves hfits
  exact ⟨ts, hts, hyields.trans hyield, hfits⟩

/-- A string of terminals that a symbol derives has a parse tree of that symbol. -/
theorem Derives.exists_parses {s : Symbol} {w : List Symbol} (h : g.Derives [s] w)
    (hs : s ≠ Symbol.goal) (hw : ∀ t ∈ w, t ∈ g.terminals) : ∃ t : ParseTree, t.Parses g s w := by
  obtain ⟨ts, hsymbols, hyield, hfits⟩ := h.exists_forest (by simpa using hs.symm) hw
  obtain ⟨t, ts, rfl, hs, hts⟩ := List.map_eq_cons_iff.mp hsymbols
  rw [List.map_eq_nil_iff] at hts
  subst hts
  exact ⟨t, hfits t (by simp), hs, by simpa [yields] using hyield⟩

end Grammar

end ShiftReduce
