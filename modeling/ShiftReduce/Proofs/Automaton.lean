import Mathlib.Data.Finset.Powerset
import Mathlib.Data.Finset.Union
import ShiftReduce.Automaton
import ShiftReduce.Proofs.Closure
import ShiftReduce.Proofs.StateIndex

/-!
# ShiftReduce.Proofs.Automaton

**The construction ends with the whole automaton.** `Automaton.Canonical` says what that is: state 0
is the closure of the goal item, no two states are equal, and there is exactly one transition from
every state on every symbol that it scans, to the state that is the goto set.

The construction grows while it is walked. `Construction.Visiting` is its invariant in the middle of
a visit: the states before `n` have all their transitions, state `n` has those of the symbols in
`done`, and there are no others. One step of a visit extends `done` by a symbol
(`Visiting.connect`), so a visit moves from `n` to `n + 1` (`Visiting.visit`), and the walk ends
when it has caught up with the states (`Visiting.explore`). It does catch up before its fuel runs
out, because the states are different sets of items of the grammar (`Sound.size_le`).
-/

namespace ShiftReduce

/-- Where a transition leaves, and on which symbol. -/
def Transition.key (t : Transition) : Nat × Symbol :=
  (t.source, t.symbol)

/-- The transitions that a list of states calls for, in the order in which they are found. -/
def Grammar.transitionKeys (g : Grammar) (states : List ItemSet) : List (Nat × Symbol) :=
  states.zipIdx.flatMap fun (items, n) => (g.scannedSymbols items).map (n, ·)

theorem Grammar.mem_transitionKeys {g : Grammar} {states : List ItemSet} {n : Nat} {s : Symbol} :
    (n, s) ∈ g.transitionKeys states ↔
      ∃ items, states[n]? = some items ∧ s ∈ g.scannedSymbols items := by
  simp only [transitionKeys, List.mem_flatMap, Prod.exists, List.mem_zipIdx_iff_getElem?,
    List.mem_map, Prod.mk.injEq]
  constructor
  · rintro ⟨items, m, hm, t, ht, rfl, rfl⟩
    exact ⟨items, hm, ht⟩
  · rintro ⟨items, hn, hs⟩
    exact ⟨items, n, hn, s, hs, rfl, rfl⟩

/-- One more state calls for the transitions on the symbols that it scans. -/
theorem Grammar.transitionKeys_take_succ {g : Grammar} {states : List ItemSet} {n : Nat}
    {items : ItemSet} (h : states[n]? = some items) :
    g.transitionKeys (states.take (n + 1)) =
      g.transitionKeys (states.take n) ++ (g.scannedSymbols items).map (n, ·) := by
  have hlen : (states.take n).length = n :=
    List.length_take_of_le (Nat.le_of_lt (List.getElem?_eq_some_iff.mp h).1)
  rw [List.take_add_one, h]
  simp [transitionKeys, List.zipIdx_append, hlen]

/-- The automaton is the whole collection of item sets of the grammar. -/
structure Automaton.Canonical (g : Grammar) (a : Automaton) : Prop where
  initial : a.states[0]? = some (Construction.initialItems g)
  distinct : ∀ {m n : Nat} {items : ItemSet},
    a.states[m]? = some items → a.states[n]? = some items → m = n
  proper : ∀ {n : Nat} {items : ItemSet}, a.states[n]? = some items → ∀ i ∈ items, g.IsItem i
  /-- There is one transition from every state on every symbol that it scans, and no other. -/
  keys : a.transitions.toList.map Transition.key = g.transitionKeys a.states.toList
  targets : ∀ t ∈ a.transitions, ∃ items, a.states[t.source]? = some items ∧
    a.states[t.target]? = some (g.goto items t.symbol)

namespace Construction

variable {g : Grammar} {c : Construction}

/-! ### Entering a state -/

/-- The index is right, the states are different, and they are sets of items of the grammar. -/
structure Sound (g : Grammar) (c : Construction) : Prop where
  listed : c.index.Lists c.automaton.states
  distinct : ∀ {m n : Nat} {items : ItemSet},
    c.automaton.states[m]? = some items → c.automaton.states[n]? = some items → m = n
  proper : ∀ {n : Nat} {items : ItemSet},
    c.automaton.states[n]? = some items → ∀ i ∈ items, g.IsItem i

theorem sound_empty (g : Grammar) : Sound g empty where
  listed := StateIndex.lists_empty
  distinct := by simp [empty, Automaton.empty]
  proper := by simp [empty, Automaton.empty]

/-- An entry searches for the items. It goes to the state that was found; if there is none, the
items become the next state, and the index knows them. -/
theorem enter_found (h : c.index.Lists c.automaton.states) (items : ItemSet) :
    ∃ found c', c.index.search c.automaton.states items c.automaton.states.size =
        .ok (found, c'.index) ∧
      (∀ k, found = some k → c.automaton.states[k]? = some items) ∧
      (found = none → items ∉ c.automaton.states) ∧
      c.enter items = .ok (found.getD c.automaton.states.size, c') ∧
      c'.index.Lists c'.automaton.states ∧
      c'.automaton.transitions = c.automaton.transitions ∧
      c'.automaton.states =
        if found = none then c.automaton.states.push items else c.automaton.states := by
  rcases StateIndex.search_cases h items with ⟨n, hn, hsearch⟩ | ⟨hnew, index, hlists, hsearch⟩
  · refine ⟨some n, c, hsearch, fun k hk => ?_, nofun, ?_, h, rfl, rfl⟩
    · rwa [← Option.some.inj hk]
    · rw [enter, hsearch]
      rfl
  · refine ⟨none, { c with automaton.states := c.automaton.states.push items, index }, hsearch,
      nofun, fun _ hmem => ?_, ?_, hlists, rfl, rfl⟩
    · obtain ⟨n, hn⟩ := Array.mem_iff_getElem?.mp hmem
      exact hnew n hn
    · rw [enter, hsearch]
      rfl

/-- Entering a set of items of the grammar gives the number of the state that has them, which is a
new state if there was none. -/
theorem Sound.enter (h : Sound g c) {items : ItemSet} (hitems : ∀ i ∈ items, g.IsItem i) :
    ∃ n c', c.enter items = .ok (n, c') ∧ Sound g c' ∧
      c'.automaton.transitions = c.automaton.transitions ∧
      c'.automaton.states[n]? = some items ∧
      (c'.automaton.states = c.automaton.states ∨
        c'.automaton.states = c.automaton.states.push items) := by
  obtain ⟨found, c', -, hsome, hnone, henter, hlists, htrans, hstates⟩ := enter_found h.listed items
  cases found with
  | some k =>
      have hsame : c'.automaton.states = c.automaton.states := hstates
      refine ⟨k, c', henter, ⟨hlists, ?_, ?_⟩, htrans, ?_, Or.inl hsame⟩
      · exact hsame ▸ h.distinct
      · exact hsame ▸ h.proper
      · exact hsame ▸ hsome k rfl
  | none =>
      have hpush : c'.automaton.states = c.automaton.states.push items := hstates
      refine ⟨c.automaton.states.size, c', henter, ⟨hlists, ?_, ?_⟩, htrans, by simp [hpush],
        Or.inr hpush⟩
      · -- the new state was found nowhere, so it is different from all others
        intro m n known hm hn
        simp only [hpush, Array.getElem?_push] at hm hn
        split at hm <;> split at hn
        · rename_i h₁ h₂
          rw [h₁, h₂]
        · cases hm
          exact absurd (Array.mem_of_getElem? hn) (hnone rfl)
        · cases hn
          exact absurd (Array.mem_of_getElem? hm) (hnone rfl)
        · exact h.distinct hm hn
      · intro n known hn
        simp only [hpush, Array.getElem?_push] at hn
        split at hn
        · cases hn
          exact hitems
        · exact h.proper hn

/-! ### Visits -/

/-- The construction while state `n` is visited and the symbols in `done` have been followed. -/
structure Visiting (g : Grammar) (n : Nat) (done : List Symbol) (c : Construction) : Prop
    extends Sound g c where
  initial : c.automaton.states[0]? = some (initialItems g)
  /-- The state that is visited was found. -/
  known : n ≤ c.automaton.states.size
  /-- Earlier states have all their transitions, and this one those on `done`. -/
  keys : c.automaton.transitions.toList.map Transition.key =
    g.transitionKeys (c.automaton.states.toList.take n) ++ done.map (n, ·)
  targets : ∀ t ∈ c.automaton.transitions, ∃ items,
    c.automaton.states[t.source]? = some items ∧
      c.automaton.states[t.target]? = some (g.goto items t.symbol)

/-- A state keeps its number when another is pushed. -/
theorem getElem?_of_push {states states' : Array ItemSet} {items : ItemSet}
    (h : states' = states ∨ states' = states.push items) {n : Nat} {known : ItemSet}
    (hn : states[n]? = some known) : states'[n]? = some known := by
  rcases h with rfl | rfl
  · exact hn
  · have hlt := (Array.getElem?_eq_some_iff.mp hn).1
    rw [Array.getElem?_push, if_neg (Nat.ne_of_lt hlt), hn]

/-- Following one symbol of the visited state. -/
theorem Visiting.connect {n : Nat} {done : List Symbol} (h : Visiting g n done c)
    {items : ItemSet} (hn : c.automaton.states[n]? = some items) (s : Symbol) :
    ∃ c', c.connect n s (g.goto items s) = .ok c' ∧ Visiting g n (done ++ [s]) c' ∧
      c'.automaton.states[n]? = some items := by
  obtain ⟨target, c', henter, hsound, htrans, htarget, hstates⟩ :=
    h.toSound.enter (@Grammar.isItem_goto g items s)
  have hconnect : c.connect n s (g.goto items s) = .ok { c' with automaton :=
      { c'.automaton with transitions := c.automaton.transitions.push ⟨n, s, target⟩ } } := by
    rw [Construction.connect, henter, ← htrans]
    rfl
  -- a new state comes last, so it moves none of the states that the invariant speaks of
  have hkeep := fun {m known} => @getElem?_of_push _ _ _ hstates m known
  have htake : c'.automaton.states.toList.take n = c.automaton.states.toList.take n := by
    rcases hstates with hs | hs
    · rw [hs]
    · rw [hs, Array.toList_push, List.take_append_of_le_length (by simpa using h.known)]
  refine ⟨_, hconnect, ⟨⟨hsound.listed, hsound.distinct, hsound.proper⟩, hkeep h.initial,
    ?_, ?_, ?_⟩, hkeep hn⟩
  · have := h.known
    rcases hstates with hs | hs <;> simp only [hs, Array.size_push] <;> omega
  · simp only [Array.toList_push, List.map_append, h.keys, htake, List.append_assoc]
    rfl
  · intro t ht
    rcases Array.mem_push.mp ht with ht | rfl
    · obtain ⟨known, hsource, hgoto⟩ := h.targets t ht
      exact ⟨known, hkeep hsource, hkeep hgoto⟩
    · exact ⟨items, hkeep hn, htarget⟩

/-- Following several symbols of the visited state. -/
theorem Visiting.follow {n : Nat} {items : ItemSet} (symbols : List Symbol) :
    ∀ {done : List Symbol} {c : Construction}, Visiting g n done c →
      c.automaton.states[n]? = some items →
      ∃ c', symbols.foldlM (fun c s => c.connect n s (g.goto items s)) c = .ok c' ∧
        Visiting g n (done ++ symbols) c' ∧ c'.automaton.states[n]? = some items := by
  induction symbols with
  | nil =>
      intro done c h hn
      exact ⟨c, rfl, by simpa using h, hn⟩
  | cons s symbols ih =>
      intro done c h hn
      obtain ⟨c₁, hconnect, h₁, hn₁⟩ := h.connect hn s
      obtain ⟨c₂, hfold, h₂, hn₂⟩ := ih h₁ hn₁
      refine ⟨c₂, ?_, by simpa using h₂, hn₂⟩
      rw [List.foldlM_cons, hconnect]
      exact hfold

/-- A whole visit leaves nothing of the state to be done. -/
theorem Visiting.visit {n : Nat} (h : Visiting g n [] c) {items : ItemSet}
    (hn : c.automaton.states[n]? = some items) :
    ∃ c', Construction.visit g c n items = .ok c' ∧ Visiting g (n + 1) [] c' := by
  have hstart : Visiting g n [] { c with progress := c.progress.push c.automaton.states.size } :=
    ⟨⟨h.listed, h.distinct, h.proper⟩, h.initial, h.known, h.keys, h.targets⟩
  obtain ⟨c', hfold, h', hn'⟩ := hstart.follow (g.scannedSymbols items) hn
  refine ⟨c', hfold, h'.toSound, h'.initial, (Array.getElem?_eq_some_iff.mp hn').1, ?_, h'.targets⟩
  rw [Grammar.transitionKeys_take_succ (by simpa using hn'), h'.keys]
  simp

/-! ### The number of states -/

/-- The items of a grammar. -/
def allItems (g : Grammar) : List Item :=
  g.rules.zipIdx.flatMap fun (p, r) => (List.range (p.rhs.length + 1)).map fun m => ⟨r, m⟩

theorem length_allItems (g : Grammar) : (allItems g).length = itemCount g := by
  have hfold : ∀ (rules : List Production) (first sum : Nat),
      sum + ((rules.zipIdx first).flatMap fun (p, r) =>
        (List.range (p.rhs.length + 1)).map fun m => (⟨r, m⟩ : Item)).length =
      rules.foldl (fun sum p => sum + (p.rhs.length + 1)) sum := by
    intro rules
    induction rules with
    | nil => simp
    | cons p rules ih =>
        intro first sum
        rw [List.foldl_cons, ← ih (first + 1)]
        simp [Nat.add_assoc]
  simpa [allItems, itemCount] using hfold g.rules 0 0

theorem mem_allItems {i : Item} (h : g.IsItem i) : i ∈ allItems g := by
  obtain ⟨p, hp, hm⟩ := h
  simp only [allItems, List.mem_flatMap, Prod.exists, List.mem_zipIdx_iff_getElem?, List.mem_map,
    List.mem_range]
  exact ⟨p, i.rule, hp, i.marker, Nat.lt_succ_of_le hm, rfl⟩

/-- A set of items as a finite set of Mathlib, to be counted. -/
def itemFinset (items : ItemSet) : Finset Item :=
  items.toList.toFinset

theorem itemFinset_injective : Function.Injective itemFinset := by
  intro s t h
  refine Std.ExtTreeSet.ext_mem fun i => ?_
  have hi : i ∈ itemFinset s ↔ i ∈ itemFinset t := by rw [h]
  simpa [itemFinset] using hi

/-- The states are different subsets of the items of the grammar, which bounds their number. -/
theorem Sound.size_le (h : Sound g c) : c.automaton.states.size ≤ Nat.pow 2 (itemCount g) := by
  have hnodup : c.automaton.states.toList.Nodup := by
    rw [List.nodup_iff_getElem?_ne_getElem?]
    intro m n hmn hn heq
    obtain ⟨items, hitems⟩ : ∃ items, c.automaton.states[n]? = some items :=
      ⟨_, Array.getElem?_eq_getElem (by simpa using hn)⟩
    exact absurd (h.distinct (by simpa [hitems] using heq) hitems) (Nat.ne_of_lt hmn)
  have hsub : (c.automaton.states.toList.map itemFinset).toFinset ⊆
      (allItems g).toFinset.powerset := by
    intro t ht
    simp only [List.mem_toFinset, List.mem_map, Finset.mem_powerset] at ht ⊢
    obtain ⟨items, hitems, rfl⟩ := ht
    obtain ⟨n, hn⟩ := List.mem_iff_getElem?.mp hitems
    intro i hi
    refine List.mem_toFinset.mpr (mem_allItems (h.proper (by simpa using hn) i ?_))
    simpa [itemFinset] using hi
  calc c.automaton.states.size
      = (c.automaton.states.toList.map itemFinset).toFinset.card := by
        rw [List.toFinset_card_of_nodup (hnodup.map itemFinset_injective)]
        simp
    _ ≤ (allItems g).toFinset.powerset.card := Finset.card_le_card hsub
    _ = 2 ^ (allItems g).toFinset.card := Finset.card_powerset _
    _ ≤ 2 ^ itemCount g :=
        Nat.pow_le_pow_right (by decide)
          (length_allItems g ▸ List.toFinset_card_le (allItems g))

/-! ### The whole construction -/

/-- The walk goes on until it has visited every state. -/
theorem Visiting.explore {fuel n : Nat} :
    ∀ {c : Construction}, Visiting g n [] c → Nat.pow 2 (itemCount g) < n + fuel →
      ∃ c', Construction.explore g fuel n c = .ok c' ∧
        Visiting g c'.automaton.states.size [] c' := by
  induction fuel generalizing n with
  | zero =>
      -- there are no more states than sets of items, so the fuel cannot have been used up
      intro c h hfuel
      have hsize := h.toSound.size_le
      have hknown := h.known
      omega
  | succ fuel ih =>
      intro c h hfuel
      rw [Construction.explore]
      cases hn : c.automaton.states[n]? with
      | none =>
          have hsize : c.automaton.states.size = n :=
            Nat.le_antisymm (by simpa using hn) h.known
          exact ⟨c, rfl, by rw [hsize]; exact h⟩
      | some items =>
          obtain ⟨c₁, hvisit, h₁⟩ := h.visit hn
          obtain ⟨c₂, hexplore, h₂⟩ := ih h₁ (by omega)
          refine ⟨c₂, ?_, h₂⟩
          dsimp only
          rw [hvisit]
          exact hexplore

/-- The initial items are items of the grammar. -/
theorem isItem_initialItems (g : Grammar) : ∀ i ∈ initialItems g, g.IsItem i := by
  refine Grammar.isItem_closure fun i hi => ?_
  obtain rfl : ⟨0, 0⟩ = i := by simpa using hi
  exact Grammar.isItem_start g.rule?_zero

/-- The construction succeeds, with the whole automaton and an index of its states. -/
theorem ofGrammar_canonical (g : Grammar) :
    ∃ c, ofGrammar g = .ok c ∧ c.automaton.Canonical g ∧ c.index.Lists c.automaton.states := by
  obtain ⟨n, c₀, henter, hsound, htrans, hn, hstates⟩ :=
    (sound_empty g).enter (isItem_initialItems g)
  have hstates : c₀.automaton.states = #[initialItems g] := by
    rcases hstates with hs | hs
    · rw [hs] at hn
      simp [empty, Automaton.empty] at hn
    · rw [hs]
      rfl
  have hstart : Visiting g 0 [] c₀ :=
    ⟨hsound, by simp [hstates], Nat.zero_le _,
      by simp [htrans, empty, Automaton.empty, Grammar.transitionKeys],
      by simp [htrans, empty, Automaton.empty]⟩
  obtain ⟨c, hexplore, h⟩ :=
    @Visiting.explore g (Nat.pow 2 (itemCount g) + 1) 0 c₀ hstart (by omega)
  refine ⟨c, ?_, ⟨h.initial, h.distinct, h.proper, ?_, h.targets⟩, h.listed⟩
  · rw [ofGrammar, henter]
    exact hexplore
  · have hkeys := h.keys
    rwa [List.take_of_length_le (by simp), List.map_nil, List.append_nil] at hkeys

/-- The automaton of a grammar is the one that was constructed. -/
theorem automaton_eq_ok (h : ofGrammar g = .ok c) : Automaton.ofGrammar g = .ok c.automaton := by
  rw [Automaton.ofGrammar, h]
  rfl

end Construction

/-! ### Transitions by source and symbol -/

namespace Automaton

/-- What is looked up was recorded. -/
theorem mem_of_target? {a : Automaton} {m n : Nat} {s : Symbol} (h : a.target? m s = some n) :
    ⟨m, s, n⟩ ∈ a.transitions := by
  obtain ⟨t, hfind, rfl⟩ := Option.map_eq_some_iff.mp h
  obtain ⟨rfl, rfl⟩ : t.source = m ∧ t.symbol = s := by simpa using Array.find?_some hfind
  exact Array.mem_of_find?_eq_some hfind

namespace Canonical

variable {g : Grammar} {a : Automaton}

/-- A transition leaves a state that scans its symbol, to the goto set. -/
theorem transition_spec (h : a.Canonical g) {t : Transition} (ht : t ∈ a.transitions) :
    ∃ items, a.states[t.source]? = some items ∧ t.symbol ∈ g.scannedSymbols items ∧
      a.states[t.target]? = some (g.goto items t.symbol) := by
  obtain ⟨items, hsource, htarget⟩ := h.targets t ht
  have hkey : t.key ∈ g.transitionKeys a.states.toList :=
    h.keys ▸ List.mem_map_of_mem (Array.mem_toList_iff.mpr ht)
  obtain ⟨items', hsource', hscan⟩ := Grammar.mem_transitionKeys.mp hkey
  obtain rfl : items' = items := by simpa [hsource] using hsource'.symm
  exact ⟨items', hsource, hscan, htarget⟩

/-- From a state that scans a symbol there is a transition. -/
theorem exists_transition (h : a.Canonical g) {m : Nat} {items : ItemSet}
    (hm : a.states[m]? = some items) {s : Symbol} (hs : s ∈ g.scannedSymbols items) :
    ∃ n, ⟨m, s, n⟩ ∈ a.transitions := by
  have hkey : (m, s) ∈ a.transitions.toList.map Transition.key := by
    rw [h.keys]
    exact Grammar.mem_transitionKeys.mpr ⟨items, by simpa using hm, hs⟩
  obtain ⟨⟨source, symbol, target⟩, ht, htkey⟩ := List.mem_map.mp hkey
  obtain ⟨rfl, rfl⟩ : source = m ∧ symbol = s := by simpa [Transition.key] using htkey
  exact ⟨target, Array.mem_toList_iff.mp ht⟩

/-- Source and symbol decide the target. -/
theorem target_unique (h : a.Canonical g) {m n n' : Nat} {s : Symbol}
    (h₁ : ⟨m, s, n⟩ ∈ a.transitions) (h₂ : ⟨m, s, n'⟩ ∈ a.transitions) : n = n' := by
  obtain ⟨items, hm, -, hn⟩ := h.transition_spec h₁
  obtain ⟨items', hm', -, hn'⟩ := h.transition_spec h₂
  obtain rfl : items = items' := by simpa [hm] using hm'
  exact h.distinct hn hn'

/-- The recorded transitions are the ones that are looked up. -/
theorem target?_iff_mem (h : a.Canonical g) {m n : Nat} {s : Symbol} :
    a.target? m s = some n ↔ ⟨m, s, n⟩ ∈ a.transitions := by
  refine ⟨mem_of_target?, fun ht => ?_⟩
  obtain ⟨u, hfind⟩ : ∃ u, a.transitions.find?
      (fun t => t.source == m && t.symbol == s) = some u := by
    rw [← Option.isSome_iff_exists, Array.find?_isSome]
    exact ⟨_, ht, by simp⟩
  have hlook : a.target? m s = some u.target := by simp [target?, hfind]
  rw [hlook, h.target_unique (mem_of_target? hlook) ht]

/-- A symbol that an item of a state scans is found among the transitions of the state. -/
theorem exists_target? (h : a.Canonical g) {m : Nat} {items : ItemSet}
    (hm : a.states[m]? = some items) {i : Item} (hi : i ∈ items) {s : Symbol}
    (hs : g.scanned? i = some s) : ∃ n, ⟨m, s, n⟩ ∈ a.transitions ∧ a.target? m s = some n := by
  obtain ⟨n, ht⟩ := h.exists_transition hm (Grammar.mem_scannedSymbols.mpr ⟨i, hi, hs⟩)
  exact ⟨n, ht, h.target?_iff_mem.mpr ht⟩

/-- A state goes on a symbol exactly to the state that is its goto set, if it scans the symbol. -/
theorem target?_eq_some (h : a.Canonical g) {m n : Nat} {s : Symbol} :
    a.target? m s = some n ↔ ∃ items, a.states[m]? = some items ∧ s ∈ g.scannedSymbols items ∧
      a.states[n]? = some (g.goto items s) := by
  constructor
  · intro ht
    exact h.transition_spec (mem_of_target? ht)
  · rintro ⟨items, hm, hs, hn⟩
    obtain ⟨n', ht⟩ := h.exists_transition hm hs
    obtain ⟨items', hm', -, hn'⟩ := h.transition_spec ht
    obtain rfl : items = items' := by simpa [hm] using hm'
    rw [h.target?_iff_mem, h.distinct hn hn']
    exact ht

end Canonical

end Automaton

end ShiftReduce
