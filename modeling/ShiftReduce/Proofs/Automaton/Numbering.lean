import ShiftReduce.Proofs.Automaton.Collection
import ShiftReduce.Proofs.Automaton.Lookup

/-!
# ShiftReduce.Proofs.Automaton.Numbering

**States are numbered in the order in which a breadth-first walk finds them.** The transitions are
listed by source, and those of one source in the order in which symbols are followed
(`Automaton.Canonical.pairwise_precedes`). Read along that list, the targets bring the states one
after the other: `Automaton.Numbered` says that the different targets, in the order of their first
appearance, are 1, 2, 3 and so on up to the last state. One connection keeps this
(`Automaton.Numbered.connect`): its target is a state that was found before, which is not state 0
because no goto set holds the goal item, or it is the next new one.
-/

namespace ShiftReduce

/-- Where the different numbers of a list are 1, 2, 3 and so on, a number is new only when all
smaller ones are there. -/
theorem mem_of_eraseDups_eq_range' {before after : List Nat} {n k : Nat}
    (h : (before ++ n :: after).eraseDups = List.range' 1 k) (hn : n ∉ before) {m : Nat}
    (hpos : 0 < m) (hlt : m < n) : m ∈ before := by
  rw [List.append_cons, List.eraseDups_append, eraseDups_append_singleton, if_neg hn,
    List.append_assoc] at h
  have hascending : (List.range' 1 k).Pairwise (· < ·) := List.pairwise_lt_range'
  have hnk : n ∈ List.range' 1 k := h ▸ by simp
  have hmk : m ∈ List.range' 1 k := by
    rw [List.mem_range'_1] at hnk ⊢
    omega
  rw [← h] at hascending hmk
  rcases List.mem_append.mp hmk with hm | hm
  · exact List.mem_eraseDups.mp hm
  · -- a number that comes after the new one is larger
    rcases List.mem_cons.mp hm with rfl | hm
    · exact absurd hlt (Nat.lt_irrefl m)
    · exact absurd (List.rel_of_pairwise_cons (List.pairwise_append.mp hascending).2.1 hm)
        (Nat.lt_asymm hlt)

/-! ### The order of symbols -/

/-- Sets of symbols are listed in byte order. -/
theorem Symbol.compare_eq_lt {s t : Symbol} : compare s t = .lt ↔ s < t := by
  rw [List.compare_eq_compareLex]
  induction s generalizing t with
  | nil => cases t <;> simp [List.compareLex]
  | cons b s ih =>
      cases t with
      | nil => simp [List.compareLex]
      | cons c t =>
          rw [List.compareLex_cons_cons, Ordering.then_eq_lt, ih, List.cons_lt_cons_iff,
            Std.compare_eq_lt, Std.compare_eq_iff_eq]

namespace Grammar

variable {g : Grammar} {items : ItemSet}

/-- The group of a symbol: the start symbol, the other non-terminals, the terminals. -/
def group (g : Grammar) (s : Symbol) : Nat :=
  if s = g.start then 0 else if g.isNonTerminal s then 1 else 2

/-- The order in which symbols are followed: by group, and in a group by bytes. -/
def FollowedBefore (g : Grammar) (s t : Symbol) : Prop :=
  g.group s < g.group t ∨ g.group s = g.group t ∧ s < t

/-- The symbols of one group are followed in byte order. -/
theorem pairwise_filter_group {symbols : List Symbol} (h : symbols.Pairwise (· < ·))
    {p : Symbol → Bool} {k : Nat} (hp : ∀ s, p s = true → g.group s = k) :
    (symbols.filter p).Pairwise g.FollowedBefore := by
  refine (h.filter p).imp_of_mem fun {s t} hs ht hlt => Or.inr ⟨?_, hlt⟩
  rw [hp s (List.mem_filter.mp hs).2, hp t (List.mem_filter.mp ht).2]

theorem pairwise_scannedSymbols : (g.scannedSymbols items).Pairwise g.FollowedBefore := by
  have hbytes : (g.scannedSet items).toList.Pairwise (· < ·) :=
    Std.ExtTreeSet.ordered_toList.imp Symbol.compare_eq_lt.mp
  have hstart : ∀ s, (s == g.start) = true → g.group s = 0 := fun s hs => by
    rw [group, if_pos (by simpa using hs)]
  have hother : ∀ s, (s != g.start && g.isNonTerminal s) = true → g.group s = 1 := fun s hs => by
    simp only [Bool.and_eq_true, bne_iff_ne] at hs
    rw [group, if_neg hs.1, if_pos hs.2]
  have hterminal : ∀ s, (!g.isNonTerminal s) = true → g.group s = 2 := fun s hs => by
    have hno : g.isNonTerminal s = false := by simpa using hs
    have hne : s ≠ g.start := fun heq => by simp [heq, g.isNonTerminal_start] at hno
    rw [group, if_neg hne, hno]
    rfl
  rw [scannedSymbols, List.pairwise_append, List.pairwise_append]
  refine ⟨⟨pairwise_filter_group hbytes hstart, pairwise_filter_group hbytes hother, ?_⟩,
    pairwise_filter_group hbytes hterminal, ?_⟩
  · intro s hs t ht
    left
    rw [hstart s (List.mem_filter.mp hs).2, hother t (List.mem_filter.mp ht).2]
    decide
  · intro s hs t ht
    left
    rw [hterminal t (List.mem_filter.mp ht).2]
    rcases List.mem_append.mp hs with hs | hs
    · rw [hstart s (List.mem_filter.mp hs).2]
      decide
    · rw [hother s (List.mem_filter.mp hs).2]
      decide

/-- No goto set holds the item that the construction starts from. -/
theorem start_notMem_goto {s : Symbol} : (⟨0, 0⟩ : Item) ∉ g.goto items s := by
  intro h
  generalize hi : (⟨0, 0⟩ : Item) = i at h
  cases mem_goto.mp h with
  | base h =>
      obtain ⟨j, -, -, hj⟩ := mem_advanceOver.mp h
      have hmarker := congrArg Item.marker (hi.trans hj)
      simp [Item.advance] at hmarker
  | @predict j r p _ hs hr =>
      obtain rfl : 0 = r := congrArg Item.rule hi
      obtain rfl : g.goalRule = p := by simpa using hr
      exact scanned?_ne_goal hs

end Grammar

/-! ### The order of transitions -/

/-- Transitions are ordered by their source, and from one source by their symbol. -/
def Transition.Precedes (g : Grammar) (t u : Transition) : Prop :=
  t.source < u.source ∨ t.source = u.source ∧ g.FollowedBefore t.symbol u.symbol

/-- The transitions of a canonical automaton are in strictly ascending order. -/
theorem Automaton.Canonical.pairwise_precedes {g : Grammar} {a : Automaton} (h : a.Canonical g) :
    a.transitions.toList.Pairwise (Transition.Precedes g) := by
  have hkeys : (g.transitionKeys a.states.toList).Pairwise fun k l =>
      k.1 < l.1 ∨ k.1 = l.1 ∧ g.FollowedBefore k.2 l.2 := by
    rw [Grammar.transitionKeys, List.pairwise_flatMap]
    constructor
    · rintro ⟨items, n⟩ -
      exact List.pairwise_map.mpr
        (Grammar.pairwise_scannedSymbols.imp fun hst => Or.inr ⟨rfl, hst⟩)
    · have hnumbers : (a.states.toList.zipIdx.map Prod.snd).Pairwise (· < ·) := by
        rw [List.zipIdx_map_snd]
        exact List.pairwise_lt_range'
      refine (List.pairwise_map.mp hnumbers).imp fun {p q} hlt k hk l hl => Or.inl ?_
      obtain ⟨s, -, rfl⟩ := List.mem_map.mp hk
      obtain ⟨t, -, rfl⟩ := List.mem_map.mp hl
      exact hlt
  rw [← h.keys] at hkeys
  exact List.Pairwise.of_map Transition.key (fun _ _ => id) hkeys

/-! ### The order of discovery -/

namespace Automaton

variable {g : Grammar} {a : Automaton}

/-- The states that the transitions lead to, in the order of the transitions. -/
def targets (a : Automaton) : List Nat :=
  a.transitions.toList.map (·.target)

/-- The targets bring the states after the first in the order of their numbers. -/
structure Numbered (g : Grammar) (a : Automaton) : Prop where
  initial : a.states[0]? = some (Construction.initialItems g)
  discovered : a.targets.eraseDups = List.range' 1 (a.states.size - 1)

/-- The states that were found are those but state 0. -/
theorem Numbered.mem_targets (h : a.Numbered g) {n : Nat} :
    n ∈ a.targets ↔ 0 < n ∧ n < a.states.size := by
  have hsize : 0 < a.states.size := (Array.getElem?_eq_some_iff.mp h.initial).1
  rw [← List.mem_eraseDups, h.discovered, List.mem_range'_1]
  omega

/-- A connection leads to a state that was found, or to the next new one. -/
theorem Numbered.connect {c c' : Construction} (h : c.automaton.Numbered g) {m : Nat} {s : Symbol}
    {items : ItemSet} (hconnect : c.connect m s (g.goto items s) = .ok c') :
    c'.automaton.Numbered g := by
  obtain ⟨n, htrans, hstates⟩ := Construction.connect_inv hconnect
  have htargets : c'.automaton.targets = c.automaton.targets ++ [n] := by
    simp [targets, htrans]
  refine ⟨Construction.getElem?_of_connect hconnect h.initial, ?_⟩
  have hmem : n ∈ c.automaton.targets ↔ 0 < n ∧ n < c.automaton.states.size := h.mem_targets
  rw [htargets, eraseDups_append_singleton, h.discovered]
  rcases hstates with ⟨hsame, hn⟩ | ⟨hpush, rfl⟩
  · have hpos : n ≠ 0 := by
      rintro rfl
      have hgoto : Construction.initialItems g = g.goto items s :=
        Option.some.inj (h.initial.symm.trans hn)
      have hstart : (⟨0, 0⟩ : Item) ∈ Construction.initialItems g :=
        Grammar.subset_closure (by simp)
      exact Grammar.start_notMem_goto (hgoto ▸ hstart)
    have hlt := (Array.getElem?_eq_some_iff.mp hn).1
    rw [if_pos (hmem.mpr ⟨Nat.pos_of_ne_zero hpos, hlt⟩), hsame]
  · have hsize : 0 < c.automaton.states.size := (Array.getElem?_eq_some_iff.mp h.initial).1
    rw [if_neg fun hin => Nat.lt_irrefl _ (hmem.mp hin).2, hpush, Array.size_push,
      Nat.add_sub_cancel]
    obtain ⟨k, hk⟩ := Nat.exists_eq_add_of_lt hsize
    rw [hk, Nat.zero_add, Nat.add_sub_cancel, List.range'_1_concat, Nat.add_comm 1 k]

/-- The numbering is canonical. Transitions are listed by source and then by symbol: the start
symbol, the other non-terminals, the terminals, each group in byte order. None of them leads back to
state 0. Along the list each target that was not seen before is the least number that was not, and
in the end all states after state 0 have been seen, in the order of their numbers. -/
theorem ofGrammar_numbering (g : Grammar) :
    ∃ a, Automaton.ofGrammar g = .ok a ∧
      a.transitions.toList.Pairwise (Transition.Precedes g) ∧
      (∀ t ∈ a.transitions, t.target ≠ 0) ∧
      (∀ before t after, a.transitions.toList = before ++ t :: after →
        t.target ∉ before.map (·.target) →
        ∀ n, 0 < n → n < t.target → n ∈ before.map (·.target)) ∧
      a.targets.eraseDups = List.range' 1 (a.states.size - 1) := by
  obtain ⟨first, c, henter, -, hwalk, hc, h⟩ := Construction.ofGrammar_walk g
  obtain ⟨-, hstates, htrans⟩ := Construction.enter_empty henter
  have hfirst : first.automaton.Numbered g :=
    ⟨by simp [hstates], by simp [targets, hstates, htrans]⟩
  have hnumbered : c.automaton.Numbered g :=
    hwalk.preserves (motive := Numbered g) (fun hn _ hconnect => hn.connect hconnect) hfirst
  refine ⟨c.automaton, Construction.automaton_eq_ok hc, h.pairwise_precedes, fun t ht => ?_,
    fun before t after hsplit hnew n => ?_, hnumbered.discovered⟩
  · have htarget : t.target ∈ c.automaton.targets :=
      List.mem_map_of_mem (Array.mem_toList_iff.mpr ht)
    exact Nat.ne_of_gt (hnumbered.mem_targets.mp htarget).1
  · have hdiscovered := hnumbered.discovered
    rw [targets, hsplit, List.map_append, List.map_cons] at hdiscovered
    exact mem_of_eraseDups_eq_range' hdiscovered hnew

end Automaton

end ShiftReduce
