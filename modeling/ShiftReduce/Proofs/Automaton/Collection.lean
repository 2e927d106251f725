import Mathlib.Data.List.Nodup
import ShiftReduce.Proofs.ViablePrefix

/-!
# ShiftReduce.Proofs.Automaton.Collection

**The automaton is the canonical collection of item sets, and the subset construction of the item
automaton.** `Automaton.Canonical` says which states and transitions there have to be. This module
adds what a bounded walk could hide or a larger automaton could violate:

* the bound on the visits is never felt: `Construction.Walk` is the walk without it, and the
  construction is such a walk (`Construction.ofGrammar_walk`);
* no state is superfluous: `Automaton.Path` follows recorded transitions from state 0, and every
  state is at the end of a path (`Construction.exists_path`);
* a goto set that is not empty has one recorded transition, and an empty one has none
  (`Automaton.Canonical.transitionsOn_of_goto`, `Automaton.Canonical.transitionsOn_eq_nil`);
* a string can be followed exactly if some item is valid for it
  (`Automaton.Canonical.exists_follow?_of_valid`, `Automaton.Canonical.exists_valid_of_follow?`).

Facts about the growing automaton are shown of one connection and lifted to the whole walk by
`Construction.Walk.preserves`.
-/

namespace ShiftReduce

/-! ### Paths -/

/-- The paths of recorded transitions from state 0: the string that is read and the state that is
reached. -/
inductive Automaton.Path (a : Automaton) : List Symbol → Nat → Prop
  | start : a.Path [] 0
  | step {γ : List Symbol} {m n : Nat} {s : Symbol} (h : a.Path γ m)
      (ht : ⟨m, s, n⟩ ∈ a.transitions) : a.Path (γ ++ [s]) n

/-- A path is still there when transitions are added. -/
theorem Automaton.Path.mono {a a' : Automaton} (h : ∀ t ∈ a.transitions, t ∈ a'.transitions)
    {γ : List Symbol} {n : Nat} (hpath : a.Path γ n) : a'.Path γ n := by
  induction hpath with
  | start => exact .start
  | step _ ht ih => exact .step ih (h _ ht)

/-- Looking up one transition after the other is following a path. -/
theorem Automaton.Canonical.follow?_iff_path {g : Grammar} {a : Automaton} (h : a.Canonical g)
    {γ : List Symbol} : ∀ {n : Nat}, a.follow? γ = some n ↔ a.Path γ n := by
  induction γ using List.reverseRecOn with
  | nil =>
      intro n
      constructor
      · intro hn
        obtain rfl : 0 = n := by simpa [follow?] using hn
        exact .start
      · generalize hγ : ([] : List Symbol) = γ
        intro hpath
        cases hpath with
        | start => rfl
        | step => simp at hγ
  | append_singleton γ s ih =>
      intro n
      rw [follow?_append_singleton, Option.bind_eq_some_iff]
      constructor
      · rintro ⟨m, hm, ht⟩
        exact .step (ih.mp hm) (h.target?_iff_mem.mp ht)
      · generalize hδ : γ ++ [s] = δ
        intro hpath
        cases hpath with
        | start => simp at hδ
        | @step γ' m _ s' hm ht =>
            obtain ⟨rfl, hs⟩ := List.append_inj' hδ rfl
            cases hs
            exact ⟨m, ih.mpr hm, h.target?_iff_mem.mpr ht⟩

/-! ### One connection -/

namespace Construction

variable {g : Grammar} {c c' : Construction}

/-- A set of items is entered as a state that has them, which is a known one or comes last. -/
theorem enter_inv {items : ItemSet} {n : Nat} (h : c.enter items = .ok (n, c')) :
    c'.automaton.transitions = c.automaton.transitions ∧
      (c'.automaton.states = c.automaton.states ∧ c.automaton.states[n]? = some items ∨
        c'.automaton.states = c.automaton.states.push items ∧ n = c.automaton.states.size) := by
  rw [enter] at h
  obtain ⟨⟨known, index⟩, hsearch, h⟩ := bind_eq_ok.mp h
  cases known with
  | none =>
      cases h
      exact ⟨rfl, Or.inr ⟨rfl, rfl⟩⟩
  | some m =>
      cases h
      exact ⟨rfl, Or.inl ⟨rfl, StateIndex.getElem?_of_search hsearch⟩⟩

/-- The first set that is entered becomes state 0. -/
theorem enter_empty {items : ItemSet} {n : Nat} (h : empty.enter items = .ok (n, c)) :
    n = 0 ∧ c.automaton.states = #[items] ∧ c.automaton.transitions = #[] := by
  obtain ⟨htrans, ⟨-, hknown⟩ | ⟨hpush, hn⟩⟩ := enter_inv h
  · simp [empty, Automaton.empty] at hknown
  · exact ⟨hn, hpush, htrans⟩

/-- A connection records one transition, whose target is a known state or a new last one. -/
theorem connect_inv {m : Nat} {s : Symbol} {items : ItemSet} (h : c.connect m s items = .ok c') :
    ∃ n, c'.automaton.transitions = c.automaton.transitions.push ⟨m, s, n⟩ ∧
      (c'.automaton.states = c.automaton.states ∧ c.automaton.states[n]? = some items ∨
        c'.automaton.states = c.automaton.states.push items ∧ n = c.automaton.states.size) := by
  rw [connect] at h
  obtain ⟨⟨n, c₁⟩, henter, h⟩ := bind_eq_ok.mp h
  obtain ⟨htrans, hstates⟩ := enter_inv henter
  cases h
  exact ⟨n, by rw [htrans], hstates⟩

/-- A state keeps its number in a connection. -/
theorem getElem?_of_connect {m n : Nat} {s : Symbol} {items known : ItemSet}
    (h : c.connect m s items = .ok c') (hn : c.automaton.states[n]? = some known) :
    c'.automaton.states[n]? = some known := by
  obtain ⟨_, _, hstates⟩ := connect_inv h
  exact getElem?_of_push (hstates.imp And.left And.left) hn

/-! ### The walk without a bound -/

/-- The walk over the states from number `n` on, for as long as there is a state to visit. -/
inductive Walk (g : Grammar) : Nat → Construction → Construction → Prop
  /-- All states have been visited. -/
  | done {n : Nat} {c : Construction} (h : c.automaton.states[n]? = none) : Walk g n c c
  /-- State `n` is visited, which may find new states. -/
  | visit {n : Nat} {c c₁ c' : Construction} {items : ItemSet}
      (h : c.automaton.states[n]? = some items) (hvisit : Construction.visit g c n items = .ok c₁)
      (rest : Walk g (n + 1) c₁ c') : Walk g n c c'

/-- A bound that the states do not reach makes no difference. -/
theorem walk_of_explore {fuel : Nat} :
    ∀ {n : Nat} {c c' : Construction}, explore g fuel n c = .ok c' →
      c'.automaton.states.size < n + fuel → Walk g n c c' := by
  induction fuel with
  | zero =>
      intro n c c' h hsize
      cases h
      exact .done (Array.getElem?_eq_none_iff.mpr (Nat.le_of_lt hsize))
  | succ fuel ih =>
      intro n c c' h hsize
      rw [explore] at h
      cases hn : c.automaton.states[n]? with
      | none =>
          rw [hn] at h
          cases h
          exact .done hn
      | some items =>
          rw [hn] at h
          dsimp only at h
          cases hvisit : Construction.visit g c n items with
          | error e => simp [hvisit] at h
          | ok c₁ =>
              rw [hvisit] at h
              exact .visit hn hvisit (ih h (by omega))

/-- The construction enters the initial items as state 0, walks on from there until every state has
been visited, and ends with the whole automaton. -/
theorem ofGrammar_walk (g : Grammar) :
    ∃ first c, empty.enter (initialItems g) = .ok (0, first) ∧
      first.automaton.states.size = 1 ∧ Walk g 0 first c ∧ ofGrammar g = .ok c ∧
      c.automaton.Canonical g := by
  obtain ⟨c, hc, h, hlists⟩ := ofGrammar_canonical g
  have hsize : c.automaton.states.size ≤ Nat.pow 2 (itemCount g) :=
    Sound.size_le ⟨hlists, h.distinct, h.proper⟩
  have hparts := hc
  rw [ofGrammar] at hparts
  obtain ⟨⟨n, first⟩, henter, hexplore⟩ := bind_eq_ok.mp hparts
  have hwalk : Walk g 0 first c := walk_of_explore hexplore (by omega)
  obtain ⟨rfl, hstates, -⟩ := enter_empty henter
  exact ⟨first, c, henter, by simp [hstates], hwalk, hc, h⟩

/-- What every connection preserves holds at the end of a walk. -/
theorem Walk.preserves {motive : Automaton → Prop}
    (step : ∀ {c c' : Construction} {n : Nat} {items : ItemSet} {s : Symbol},
      motive c.automaton → c.automaton.states[n]? = some items →
      c.connect n s (g.goto items s) = .ok c' → motive c'.automaton)
    {n : Nat} {c c' : Construction} (h : Walk g n c c') :
    motive c.automaton → motive c'.automaton := by
  induction h with
  | done => exact id
  | @visit n c c₁ c' items hn hvisit _ ih =>
      intro hc
      -- the visited state stays where it is while its symbols are followed
      have h₁ : motive c₁.automaton ∧ c₁.automaton.states[n]? = some items :=
        foldlM_invariant (P := fun c => motive c.automaton ∧ c.automaton.states[n]? = some items)
          (fun hP hstep => ⟨step hP.1 hP.2 hstep, getElem?_of_connect hstep hP.2⟩) ⟨hc, hn⟩ hvisit
      exact ih h₁.1

/-! ### No state is superfluous -/

/-- A connection leads on from the end of a path, so a state that is new is at the end of one
too. -/
theorem path_of_connect {m : Nat} {s : Symbol} {items known : ItemSet}
    (hpaths : ∀ n < c.automaton.states.size, ∃ γ, c.automaton.Path γ n)
    (hm : c.automaton.states[m]? = some known) (h : c.connect m s items = .ok c') :
    ∀ n < c'.automaton.states.size, ∃ γ, c'.automaton.Path γ n := by
  obtain ⟨target, htrans, hstates⟩ := connect_inv h
  have hkeep : ∀ {γ n}, c.automaton.Path γ n → c'.automaton.Path γ n :=
    Automaton.Path.mono fun t ht => by
      rw [htrans]
      exact Array.mem_push_of_mem _ ht
  have hold : ∀ n < c.automaton.states.size, ∃ γ, c'.automaton.Path γ n := by
    intro n hn
    obtain ⟨γ, hγ⟩ := hpaths n hn
    exact ⟨γ, hkeep hγ⟩
  intro n hn
  rcases hstates with ⟨hsame, -⟩ | ⟨hpush, rfl⟩
  · exact hold n (hsame ▸ hn)
  · rw [hpush, Array.size_push] at hn
    rcases Nat.lt_succ_iff_lt_or_eq.mp hn with hn | rfl
    · exact hold n hn
    · -- the new state is reached over the transition that was recorded for it
      obtain ⟨γ, hγ⟩ := hold m (Array.getElem?_eq_some_iff.mp hm).1
      exact ⟨γ ++ [s], hγ.step (by rw [htrans]; exact Array.mem_push_self)⟩

/-- Every state that a walk from state 0 has found is at the end of a path. -/
theorem exists_path (h : Walk g 0 c c') (hsize : c.automaton.states.size = 1) :
    ∀ n < c'.automaton.states.size, ∃ γ, c'.automaton.Path γ n := by
  refine h.preserves (motive := fun a => ∀ n < a.states.size, ∃ γ, a.Path γ n)
    path_of_connect fun n hn => ?_
  obtain rfl : n = 0 := by omega
  exact ⟨[], .start⟩

end Construction

/-! ### Transitions and goto sets -/

/-- Parts that are found by their numbers repeat nothing if no part does. -/
theorem nodup_flatMap_zipIdx {α β : Type} {l : List α} {f : α × Nat → List β} (number : β → Nat)
    (hnumber : ∀ x n, ∀ y ∈ f (x, n), number y = n) (h : ∀ x ∈ l, ∀ n, (f (x, n)).Nodup) :
    (l.zipIdx.flatMap f).Nodup := by
  refine List.nodup_flatMap.mpr ⟨fun q hq => h q.1 (List.fst_mem_of_mem_zipIdx hq) q.2, ?_⟩
  have hnumbers : (l.zipIdx.map Prod.snd).Nodup := by
    rw [List.zipIdx_map_snd]
    exact List.nodup_range'
  refine (List.pairwise_map.mp hnumbers).imp fun {p q} hne y hp hq => hne ?_
  rw [← hnumber p.1 p.2 y hp, hnumber q.1 q.2 y hq]

namespace Automaton

/-- The recorded transitions from a state on a symbol. -/
def transitionsOn (a : Automaton) (source : Nat) (symbol : Symbol) : List Transition :=
  a.transitions.toList.filter fun t => t.source == source && t.symbol == symbol

theorem mem_transitionsOn {a : Automaton} {m : Nat} {s : Symbol} {t : Transition} :
    t ∈ a.transitionsOn m s ↔ t ∈ a.transitions ∧ t.source = m ∧ t.symbol = s := by
  simp [transitionsOn]

/-- No state is asked for two transitions on a symbol. -/
theorem nodup_transitionKeys (g : Grammar) (states : List ItemSet) :
    (g.transitionKeys states).Nodup := by
  refine nodup_flatMap_zipIdx Prod.fst (fun items n key hkey => ?_) fun items _ n => ?_
  · obtain ⟨s, -, rfl⟩ := List.mem_map.mp hkey
    rfl
  · exact Grammar.nodup_scannedSymbols.map fun s t h => congrArg Prod.snd h

/-- The targets by source and symbol, in a map that is filled along with the transitions. -/
def targetMap (transitions : List Transition) : Nat × Symbol → Option Nat :=
  transitions.foldl (fun map t => Function.update map t.key (some t.target)) fun _ => none

theorem targetMap_append_singleton (transitions : List Transition) (t : Transition) :
    targetMap (transitions ++ [t]) =
      Function.update (targetMap transitions) t.key (some t.target) := by
  rw [targetMap, List.foldl_append]
  rfl

/-- The map has every transition, if no two of them leave one state on one symbol. -/
theorem targetMap_eq_some_iff {transitions : List Transition}
    (h : (transitions.map Transition.key).Nodup) {m n : Nat} {s : Symbol} :
    targetMap transitions (m, s) = some n ↔ ⟨m, s, n⟩ ∈ transitions := by
  induction transitions using List.reverseRecOn with
  | nil => simp [targetMap]
  | append_singleton transitions t ih =>
      rw [List.map_append, List.map_singleton] at h
      obtain ⟨hold, -, hnew⟩ := List.nodup_append'.mp h
      rw [targetMap_append_singleton, List.mem_append, List.mem_singleton]
      by_cases hkey : (m, s) = t.key
      · have hnotMem : ⟨m, s, n⟩ ∉ transitions := fun hmem =>
          hnew (List.mem_map_of_mem hmem) (hkey ▸ List.mem_singleton_self _)
        obtain ⟨source, symbol, target⟩ := t
        cases hkey
        rw [Transition.key, Function.update_self, or_iff_right hnotMem]
        simp [eq_comm]
      · have hne : (⟨m, s, n⟩ : Transition) ≠ t := fun heq => hkey (heq ▸ rfl)
        rw [Function.update_of_ne hkey, ih hold, or_iff_left hne]

namespace Canonical

variable {g : Grammar} {a : Automaton}

/-- To look a target up in the map is to search the transitions. -/
theorem targetMap_eq (h : a.Canonical g) (m : Nat) (s : Symbol) :
    targetMap a.transitions.toList (m, s) = a.target? m s := by
  refine Option.ext fun n => ?_
  rw [targetMap_eq_some_iff (h.keys ▸ nodup_transitionKeys g _), h.target?_iff_mem,
    Array.mem_toList_iff]

theorem nodup_transitions (h : a.Canonical g) : a.transitions.toList.Nodup :=
  List.Nodup.of_map Transition.key (h.keys ▸ nodup_transitionKeys g _)

/-- A transition is the only one from its source on its symbol. -/
theorem transitionsOn_eq (h : a.Canonical g) {m n : Nat} {s : Symbol}
    (ht : ⟨m, s, n⟩ ∈ a.transitions) : a.transitionsOn m s = [⟨m, s, n⟩] := by
  have hnodup : (a.transitionsOn m s).Nodup := h.nodup_transitions.filter _
  refine List.perm_singleton.mp
    ((List.perm_ext_iff_of_nodup hnodup (List.nodup_singleton _)).mpr fun t => ?_)
  rw [List.mem_singleton]
  constructor
  · intro hmem
    obtain ⟨ht', rfl, rfl⟩ := mem_transitionsOn.mp hmem
    cases t
    rw [h.target_unique ht' ht]
  · rintro rfl
    exact mem_transitionsOn.mpr ⟨ht, rfl, rfl⟩

/-- From every state there is one transition on each symbol with a goto set, to the state that is
that set. -/
theorem transitionsOn_of_goto (h : a.Canonical g) {m : Nat} {items : ItemSet}
    (hm : a.states[m]? = some items) {s : Symbol} (hs : g.goto items s ≠ ∅) :
    ∃ n, a.states[n]? = some (g.goto items s) ∧ a.transitionsOn m s = [⟨m, s, n⟩] ∧
      a.target? m s = some n := by
  have hscan : s ∈ g.scannedSymbols items :=
    Decidable.of_not_not (mt Grammar.goto_eq_empty_iff.mpr hs)
  obtain ⟨n, ht⟩ := h.exists_transition hm hscan
  obtain ⟨items', hm', -, hn⟩ := h.transition_spec ht
  obtain rfl : items = items' := by simpa [hm] using hm'
  exact ⟨n, hn, h.transitionsOn_eq ht, h.target?_iff_mem.mpr ht⟩

/-- There is no transition on a symbol without a goto set. -/
theorem transitionsOn_eq_nil (h : a.Canonical g) {m : Nat} {items : ItemSet}
    (hm : a.states[m]? = some items) {s : Symbol} (hs : g.goto items s = ∅) :
    a.transitionsOn m s = [] ∧ a.target? m s = none := by
  have hnone : ∀ n, ⟨m, s, n⟩ ∉ a.transitions := by
    intro n ht
    obtain ⟨items', hm', hscan, -⟩ := h.transition_spec ht
    obtain rfl : items = items' := by simpa [hm] using hm'
    exact Grammar.goto_eq_empty_iff.mp hs hscan
  constructor
  · refine List.eq_nil_iff_forall_not_mem.mpr fun t hmem => ?_
    obtain ⟨ht, rfl, rfl⟩ := mem_transitionsOn.mp hmem
    exact hnone _ ht
  · refine Option.eq_none_iff_forall_not_mem.mpr fun n ht => ?_
    exact hnone n (mem_of_target? ht)

end Canonical

/-- The construction ends by itself, and its result is the canonical collection: state 0 is the
closure of the goal item, the states are different, each can be reached from state 0, and from each
there is exactly one transition on every symbol whose goto set is not empty, to the state that is
the goto set. A map that is filled along with the transitions finds the same targets. -/
theorem ofGrammar_canonicalCollection (g : Grammar) :
    ∃ first c, Construction.empty.enter (g.closure {⟨0, 0⟩}) = .ok (0, first) ∧
      Construction.Walk g 0 first c ∧ Automaton.ofGrammar g = .ok c.automaton ∧
      c.automaton.states[0]? = some (g.closure {⟨0, 0⟩}) ∧
      (∀ m n : Nat, m < n → n < c.automaton.states.size →
        c.automaton.states[m]? ≠ c.automaton.states[n]?) ∧
      (∀ n < c.automaton.states.size, ∃ γ, c.automaton.Path γ n) ∧
      (∀ t ∈ c.automaton.transitions, t.source < c.automaton.states.size) ∧
      ∀ (m : Nat) (items : ItemSet), c.automaton.states[m]? = some items → ∀ s : Symbol,
        (g.goto items s ≠ ∅ → ∃ n, n < c.automaton.states.size ∧
          c.automaton.states[n]? = some (g.goto items s) ∧
          c.automaton.transitionsOn m s = [⟨m, s, n⟩] ∧ c.automaton.target? m s = some n) ∧
        (g.goto items s = ∅ →
          c.automaton.transitionsOn m s = [] ∧ c.automaton.target? m s = none) ∧
        targetMap c.automaton.transitions.toList (m, s) = c.automaton.target? m s := by
  obtain ⟨first, c, henter, hsize, hwalk, hc, h⟩ := Construction.ofGrammar_walk g
  refine ⟨first, c, henter, hwalk, Construction.automaton_eq_ok hc, h.initial, ?_,
    Construction.exists_path hwalk hsize, fun t ht => ?_,
    fun m items hm s => ⟨fun hs => ?_, h.transitionsOn_eq_nil hm, h.targetMap_eq m s⟩⟩
  · intro m n hmn hn heq
    have hn' := Array.getElem?_eq_getElem hn
    exact absurd (h.distinct (heq.trans hn') hn') (Nat.ne_of_lt hmn)
  · obtain ⟨items, hsource, -⟩ := h.targets t ht
    exact (Array.getElem?_eq_some_iff.mp hsource).1
  · obtain ⟨n, hn, htrans, htarget⟩ := h.transitionsOn_of_goto hm hs
    exact ⟨n, (Array.getElem?_eq_some_iff.mp hn).1, hn, htrans, htarget⟩

end Automaton

/-! ### Strings and their valid items -/

/-- A string has a valid item only if some item that is valid before its last symbol scans it. -/
theorem Grammar.Valid.exists_scanned {g : Grammar} {γ : List Symbol} {s : Symbol} {i : Item}
    (h : g.Valid (γ ++ [s]) i) : ∃ j, g.Valid γ j ∧ g.scanned? j = some s := by
  generalize hδ : γ ++ [s] = δ at h
  induction h with
  | goal => simp at hδ
  | @advance γ' j s' hj hs _ =>
      obtain ⟨rfl, hs'⟩ := List.append_inj' hδ rfl
      cases hs'
      exact ⟨j, hj, hs⟩
  | predict _ _ _ ih => exact ih hδ

namespace Automaton

namespace Canonical

variable {g : Grammar} {a : Automaton} {γ : List Symbol}

/-- A string with a valid item can be followed. -/
theorem exists_follow?_of_valid (h : a.Canonical g) :
    ∀ {i : Item}, g.Valid γ i → ∃ n, a.follow? γ = some n := by
  induction γ using List.reverseRecOn with
  | nil => exact fun _ => ⟨0, rfl⟩
  | append_singleton γ s ih =>
      intro i hi
      obtain ⟨j, hj, hs⟩ := hi.exists_scanned
      obtain ⟨m, hm⟩ := ih hj
      obtain ⟨n, -, hn⟩ := h.exists_follow? hm hj hs
      exact ⟨n, hn⟩

/-- A string that can be followed has a valid item. -/
theorem exists_valid_of_follow? (h : a.Canonical g) {n : Nat} (hn : a.follow? γ = some n) :
    ∃ i, g.Valid γ i := by
  rcases γ.eq_nil_or_concat' with rfl | ⟨δ, s, rfl⟩
  · exact ⟨_, .goal⟩
  · rw [follow?_append_singleton, Option.bind_eq_some_iff] at hn
    obtain ⟨m, hm, ht⟩ := hn
    obtain ⟨items, hitems, hvalid⟩ := h.mem_iff_valid hm
    obtain ⟨items', hitems', hscan, -⟩ := h.target?_eq_some.mp ht
    obtain rfl : items = items' := by simpa [hitems] using hitems'
    obtain ⟨i, hi, hs⟩ := Grammar.mem_scannedSymbols.mp hscan
    exact ⟨i.advance, .advance ((hvalid i).mp hi) hs⟩

end Canonical

/-- The automaton is the subset construction of the item automaton: a string can be followed from
state 0 exactly if it has a valid item, the state that it leads to is the one that is looked up, and
that state holds the valid items of the string and no others. -/
theorem ofGrammar_subsetConstruction (g : Grammar) :
    ∃ a, Automaton.ofGrammar g = .ok a ∧ ∀ γ : List Symbol,
      ((∃ n, a.Path γ n) ↔ ∃ i, g.Valid γ i) ∧
      (∀ n, a.Path γ n ↔ a.follow? γ = some n) ∧
      ∀ n, a.Path γ n → ∃ items, a.states[n]? = some items ∧ ∀ i, i ∈ items ↔ g.Valid γ i := by
  obtain ⟨c, hc, h, -⟩ := Construction.ofGrammar_canonical g
  refine ⟨c.automaton, Construction.automaton_eq_ok hc, fun γ => ⟨⟨?_, ?_⟩, ?_, ?_⟩⟩
  · rintro ⟨n, hpath⟩
    exact h.exists_valid_of_follow? (h.follow?_iff_path.mpr hpath)
  · rintro ⟨i, hi⟩
    obtain ⟨n, hn⟩ := h.exists_follow?_of_valid hi
    exact ⟨n, h.follow?_iff_path.mp hn⟩
  · exact fun n => h.follow?_iff_path.symm
  · exact fun n hpath => h.mem_iff_valid (h.follow?_iff_path.mpr hpath)

end Automaton

end ShiftReduce
