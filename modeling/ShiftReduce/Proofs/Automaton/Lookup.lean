import Mathlib.Data.List.Nodup
import ShiftReduce.Proofs.Automaton

/-!
# ShiftReduce.Proofs.Automaton.Lookup

**Looking states up by bucket is searching them one by one, whatever is looked up.** The sets that
the construction enters are goto sets of one grammar, but the index does not depend on that: sets of
any items, with any production and marker numbers, may be entered in any order and any number of
times (`Construction.enterAll`).

The bucket of a set is a sum in words of 64 bits (`StateIndex.toNat_wordSum`), and different sets
may share it. What makes a search complete is that every state is listed in the bucket of its own
sum, which the search itself sees to before the state is there. One entry keeps this
(`Construction.enter_found`), and the states after any entries are the different sets in the order
of their first entry (`Construction.enterAll_listed`).
-/

namespace ShiftReduce

/-! ### Different values in the order of their first appearance -/

/-- A value at the end is new among the different values, or changes nothing. -/
theorem eraseDups_append_singleton {α : Type} [BEq α] [LawfulBEq α] (l : List α) (a : α) :
    (l ++ [a]).eraseDups = if a ∈ l then l.eraseDups else l.eraseDups ++ [a] := by
  rw [List.eraseDups_append]
  by_cases h : a ∈ l
  · simp [List.removeAll, h]
  · have hnew : [a].removeAll l = [a] := by simp [List.removeAll, h]
    rw [hnew, List.eraseDups_cons, if_neg h]
    rfl

theorem nodup_eraseDups {α : Type} [BEq α] [LawfulBEq α] (l : List α) : l.eraseDups.Nodup := by
  induction l using List.reverseRecOn with
  | nil => exact List.nodup_nil
  | append_singleton l a ih =>
      rw [eraseDups_append_singleton]
      split
      · exact ih
      · rename_i h
        have hnew : a ∉ l.eraseDups := mt List.mem_eraseDups.mp h
        exact List.nodup_append_comm.mp (List.nodup_cons.mpr ⟨hnew, ih⟩)

/-- Where no value comes twice, the place that a search finds is the only one. -/
theorem idxOf?_eq_some_iff_of_nodup {α : Type} [BEq α] [LawfulBEq α] {l : List α} (h : l.Nodup)
    {a : α} {k : Nat} : l.idxOf? a = some k ↔ l[k]? = some a := by
  rw [List.idxOf?_eq_some_iff, List.getElem?_eq_some_iff]
  constructor
  · rintro ⟨hk, ha, -⟩
    exact ⟨hk, ha⟩
  · rintro ⟨hk, rfl⟩
    exact ⟨hk, rfl, fun j hj heq => absurd (h.getElem_inj_iff.mp heq) (Nat.ne_of_lt hj)⟩

/-! ### Buckets -/

namespace StateIndex

/-- Every set has a bucket. -/
theorem bucketOf_lt (items : ItemSet) : bucketOf items < bucketCount := by
  rw [bucketOf]
  rcases List.eq_nil_or_concat' items.toList.zipIdx with h | ⟨before, last, h⟩
  · rw [h]
    decide
  · rw [h, List.foldl_append]
    exact Nat.mod_lt _ (by decide)

/-- The sum that picks a bucket, in words of 64 bits. -/
def wordSum (items : ItemSet) : UInt64 :=
  items.toList.zipIdx.foldl (fun sum (i, place) =>
    (sum + i.rule.toUInt64 * 97 + i.marker.toUInt64 * 7 + place.toUInt64) % 997) 0

/-- The bucket is the sum in words, whatever wraps around in it. -/
theorem toNat_wordSum (items : ItemSet) : (wordSum items).toNat = bucketOf items :=
  (List.foldl_hom UInt64.toNat fun sum (i, place) => by simp [bucketCount, UInt64.size]).symm

end StateIndex

/-! ### Entries -/

namespace Construction

/-- Enters sets of items one after the other, from nothing on. -/
def enterAll (sets : List ItemSet) : Except Missing Construction :=
  sets.foldlM (fun c items => Prod.snd <$> c.enter items) empty

theorem enterAll_append_singleton (sets : List ItemSet) (items : ItemSet) :
    enterAll (sets ++ [items]) = enterAll sets >>= fun c => Prod.snd <$> c.enter items := by
  simp [enterAll]

/-- All entries succeed. The states are then the different sets in the order of their first entry,
and each is listed in its bucket. -/
theorem enterAll_listed (sets : List ItemSet) :
    ∃ c, enterAll sets = .ok c ∧ c.index.Lists c.automaton.states ∧
      c.automaton.states.toList = sets.eraseDups := by
  induction sets using List.reverseRecOn with
  | nil => exact ⟨empty, rfl, StateIndex.lists_empty, rfl⟩
  | append_singleton sets items ih =>
      obtain ⟨c, hall, hlists, hstates⟩ := ih
      obtain ⟨found, c', -, hsome, hnone, henter, hlists', -, hstates'⟩ := enter_found hlists items
      have hmem : items ∈ sets ↔ items ∈ c.automaton.states := by
        rw [← Array.mem_toList_iff, hstates, List.mem_eraseDups]
      refine ⟨c', ?_, hlists', ?_⟩
      · rw [enterAll_append_singleton, hall, ok_bind, henter]
        rfl
      · rw [hstates', eraseDups_append_singleton, ← hstates]
        cases found with
        | none => rw [if_pos rfl, if_neg (mt hmem.mp (hnone rfl)), Array.toList_push]
        | some k =>
            have hknown := Array.mem_of_getElem? (hsome k rfl)
            rw [if_neg nofun, if_pos (hmem.mpr hknown)]

/-- Sets of items are entered in any number. No entry fails, and the states stay different from each
other. To look up one more set is to search the states one by one: its bucket is one of those that
there are, and the search answers with the state that has these items, which is the only one, or
with nothing if there is none. The items are then entered as that state, or as a new last one. -/
theorem enterAll_linear (earlier : List ItemSet) (items : ItemSet) :
    ∃ c, enterAll earlier = .ok c ∧
      c.automaton.states.toList = earlier.eraseDups ∧ c.automaton.states.toList.Nodup ∧
      (StateIndex.wordSum items).toNat = StateIndex.bucketOf items ∧
      StateIndex.bucketOf items < StateIndex.bucketCount ∧
      ∃ found c', c.index.search c.automaton.states items c.automaton.states.size =
          .ok (found, c'.index) ∧
        found = c.automaton.states.toList.idxOf? items ∧
        (∀ k, found = some k ↔ c.automaton.states[k]? = some items) ∧
        (∀ k k' : Nat, c.automaton.states[k]? = some items → c.automaton.states[k']? = some items →
          k = k') ∧
        c.enter items = .ok (found.getD c.automaton.states.size, c') ∧
        c'.automaton.states =
          (if found = none then c.automaton.states.push items else c.automaton.states) ∧
        enterAll (earlier ++ [items]) = .ok c' := by
  obtain ⟨c, hall, hlists, hstates⟩ := enterAll_listed earlier
  obtain ⟨found, c', hsearch, hsome, hnone, henter, -, -, hstates'⟩ := enter_found hlists items
  have hnodup : c.automaton.states.toList.Nodup := hstates ▸ nodup_eraseDups earlier
  have hplace : ∀ k, c.automaton.states.toList.idxOf? items = some k ↔
      c.automaton.states[k]? = some items := fun k => by
    rw [idxOf?_eq_some_iff_of_nodup hnodup, Array.getElem?_toList]
  have hfound : found = c.automaton.states.toList.idxOf? items := by
    cases found with
    | some k => exact ((hplace k).mpr (hsome k rfl)).symm
    | none => exact (List.idxOf?_eq_none_iff.mpr (by simpa using hnone rfl)).symm
  refine ⟨c, hall, hstates, hnodup, StateIndex.toNat_wordSum items, StateIndex.bucketOf_lt items,
    found, c', hsearch, hfound, fun k => hfound ▸ hplace k, fun k k' hk hk' => ?_, henter, hstates',
    ?_⟩
  · exact Option.some.inj (((hplace k).mpr hk).symm.trans ((hplace k').mpr hk'))
  · rw [enterAll_append_singleton, hall, ok_bind, henter]
    rfl

end Construction

end ShiftReduce
