import ShiftReduce.Automaton.StateIndex
import ShiftReduce.Proofs.Grammar

/-!
# ShiftReduce.Proofs.StateIndex

**Looking a state up in its bucket is looking it up among all states.** The sum that picks a bucket
is lossy, but equal sets have equal sums, so a set that is among the states is in the bucket that is
searched. `StateIndex.Lists` is the invariant behind this, and `StateIndex.search_cases` says what a
search finds and that a failed one keeps the invariant.
-/

namespace ShiftReduce.StateIndex

/-- Every bucket lists the states that belong to it, and no others. -/
def Lists (index : StateIndex) (states : Array ItemSet) : Prop :=
  ∀ number n, n ∈ index.bucket number ↔
    ∃ items, states[n]? = some items ∧ bucketOf items = number

theorem lists_empty : empty.Lists #[] := by
  intro number n
  simp [empty, bucket]

variable {index : StateIndex} {states : Array ItemSet}

/-- A listed state exists. -/
theorem Lists.lt_size (h : index.Lists states) {number n : Nat} (hn : n ∈ index.bucket number) :
    ∃ known, states[n]? = some known := by
  obtain ⟨known, hknown, -⟩ := (h number n).mp hn
  exact ⟨known, hknown⟩

/-- A search through states that exist finds the given items or ends without them. -/
theorem findIn_cases (items : ItemSet) {listed : List Nat}
    (h : ∀ n ∈ listed, ∃ known, states[n]? = some known) :
    (∃ n, states[n]? = some items ∧ findIn states items listed = .ok (some n)) ∨
      (∀ n ∈ listed, states[n]? ≠ some items) ∧ findIn states items listed = .ok none := by
  induction listed with
  | nil => exact Or.inr ⟨by simp, rfl⟩
  | cons n rest ih =>
      obtain ⟨known, hknown⟩ := h n (by simp)
      rw [findIn, hknown]
      dsimp only
      by_cases heq : known = items
      · exact Or.inl ⟨n, heq ▸ hknown, if_pos heq⟩
      · rw [if_neg heq]
        rcases ih fun m hm => h m (by simp [hm]) with hfound | ⟨hnone, hend⟩
        · exact Or.inl hfound
        · refine Or.inr ⟨fun m hm => ?_, hend⟩
          rcases List.mem_cons.mp hm with rfl | hm
          · rw [hknown]
            exact fun h => heq (Option.some.inj h)
          · exact hnone m hm

theorem getElem?_of_findIn {items : ItemSet} {listed : List Nat} {n : Nat}
    (h : findIn states items listed = .ok (some n)) : states[n]? = some items := by
  induction listed with
  | nil => simp [findIn] at h
  | cons m rest ih =>
      rw [findIn] at h
      cases hm : states[m]? with
      | none => simp [hm] at h
      | some known =>
          rw [hm] at h
          dsimp only at h
          split at h
          · rename_i heq
            cases h
            exact heq ▸ hm
          · exact ih h

/-- Whatever the index lists, a state that a search returns has the given items. -/
theorem getElem?_of_search {index' : StateIndex} {items : ItemSet} {fresh n : Nat}
    (h : index.search states items fresh = .ok (some n, index')) : states[n]? = some items := by
  rw [search] at h
  obtain ⟨found, hfind, h⟩ := bind_eq_ok.mp h
  cases found with
  | none => cases h
  | some m =>
      cases h
      exact getElem?_of_findIn hfind

/-- Registering new items under the next number keeps every bucket right. -/
theorem Lists.push (h : index.Lists states) (items : ItemSet) :
    Lists ⟨index.buckets.insert (bucketOf items)
      (index.bucket (bucketOf items) ++ [states.size])⟩ (states.push items) := by
  intro number n
  rw [bucket, Std.ExtTreeMap.getD_insert, Array.getElem?_push]
  by_cases hnumber : bucketOf items = number
  · subst hnumber
    rw [if_pos (by simp), List.mem_append, h]
    by_cases hn : n = states.size
    · simp [hn]
    · simp [hn]
  · rw [if_neg (by simpa using hnumber)]
    change n ∈ index.bucket number ↔ _
    rw [h]
    by_cases hn : n = states.size
    · simp [hn, hnumber]
    · simp [hn]

/-- A search returns the state that has the items. If there is none it says so, and the items are
then listed under the next number. -/
theorem search_cases (h : index.Lists states) (items : ItemSet) :
    (∃ n, states[n]? = some items ∧
      index.search states items states.size = .ok (some n, index)) ∨
    (∀ n : Nat, states[n]? ≠ some items) ∧ ∃ index' : StateIndex, index'.Lists (states.push items) ∧
      index.search states items states.size = .ok (none, index') := by
  have hlisted : ∀ n ∈ index.bucket (bucketOf items), ∃ known, states[n]? = some known :=
    fun n hn => h.lt_size hn
  rcases findIn_cases items hlisted with ⟨n, hn, hfind⟩ | ⟨hnone, hfind⟩
  · refine Or.inl ⟨n, hn, ?_⟩
    rw [search, hfind]
    rfl
  · refine Or.inr ⟨fun n hn => ?_, _, h.push items, ?_⟩
    · exact hnone n ((h _ n).mpr ⟨items, hn, rfl⟩) hn
    · rw [search, hfind]
      rfl

end ShiftReduce.StateIndex
