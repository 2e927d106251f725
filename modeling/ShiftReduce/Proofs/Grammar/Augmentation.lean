import Mathlib.Data.List.Basic
import ShiftReduce.Proofs.Grammar

/-!
# ShiftReduce.Proofs.Grammar.Augmentation

**Which lists of productions are grammars, and what is made of them.** `Grammar.Refuses` says why a
list is no grammar, without the scan that finds the reason: it is empty, or a symbol of it is empty
or reserved, and the error is about the first such symbol of the first declaration that has one.
`Grammar.ofRules` refuses exactly these lists, with exactly these errors
(`Grammar.ofRules_eq_error_iff`), and the messages tell the errors apart
(`GrammarError.message_badSymbol_inj`).

`Grammar.Augments` collects what holds of the grammar of any other list: the goal production comes
first and the declarations follow in their order, every symbol of a right-hand side is on one side
of the division into terminals and non-terminals, and the numbers of the productions of a symbol are
found by that symbol. `Grammar.Indexes` are the three indexes of a grammar as two loops over its
productions fill them, and they hold the same (`Grammar.Indexes.fill_rules`).
-/

namespace ShiftReduce

/-! ### Numbers in messages -/

namespace Text

/-- A digit is the same number as a character and as a byte. -/
theorem toNat_toUInt8_of_isDigit {c : Char} (h : c.isDigit = true) :
    48 ≤ c.toNat ∧ c.toNat ≤ 57 ∧ c.toUInt8.toNat = c.toNat := by
  have hbounds : 48 ≤ c.toNat ∧ c.toNat ≤ 57 := by
    simpa [Char.isDigit, UInt32.le_iff_toNat_le] using h
  have hbyte : c.toUInt8.toNat = c.toNat := by
    rw [Char.toUInt8, UInt32.toNat_toUInt8]
    exact Nat.mod_eq_of_lt (by have := hbounds.2; show c.toNat < 2^8; omega)
  exact ⟨hbounds.1, hbounds.2, hbyte⟩

/-- A number is read back from its digits. -/
theorem ofDigits_ofNat (n : Nat) : ofDigits (ofNat n) = n := by
  have hdigits : ∀ c ∈ Nat.toDigits 10 n, (c.toUInt8 - 48).toNat = c.toNat - '0'.toNat := by
    intro c hc
    obtain ⟨hlow, hhigh, hbyte⟩ :=
      toNat_toUInt8_of_isDigit (Nat.isDigit_of_mem_toDigits (by decide) (by decide) hc)
    rw [UInt8.toNat_sub_of_le, hbyte]
    · rfl
    · rw [UInt8.le_iff_toNat_le, hbyte]
      exact hlow
  calc ofDigits (ofNat n)
      = (Nat.toDigits 10 n).foldl (fun sum c => 10 * sum + (c.toUInt8 - 48).toNat) 0 := by
        rw [ofDigits, ofNat, List.foldl_map]
    _ = Nat.ofDigitChars 10 (Nat.toDigits 10 n) 0 := by
        rw [Nat.ofDigitChars_eq_foldl]
        exact List.foldl_ext _ _ 0 fun sum c hc => by rw [hdigits c hc]
    _ = n := Nat.ofDigitChars_toDigits (by decide) (by decide)

theorem isDigit_of_mem_ofNat {n : Nat} {b : UInt8} (h : b ∈ ofNat n) : isDigit b = true := by
  obtain ⟨c, hc, rfl⟩ := List.mem_map.mp h
  obtain ⟨hlow, hhigh, hbyte⟩ :=
    toNat_toUInt8_of_isDigit (Nat.isDigit_of_mem_toDigits (by decide) (by decide) hc)
  simp only [isDigit, Bool.and_eq_true, decide_eq_true_eq, UInt8.le_iff_toNat_le, hbyte]
  exact ⟨hlow, hhigh⟩

/-- Where a number is followed by another byte, its digits end there. -/
theorem takeWhile_ofNat_append (n : Nat) {b : UInt8} (hb : isDigit b = false) (rest : Text) :
    (ofNat n ++ b :: rest).takeWhile isDigit = ofNat n := by
  rw [List.takeWhile_append_of_pos fun c hc => isDigit_of_mem_ofNat hc,
    List.takeWhile_cons_of_neg (by simp [hb]), List.append_nil]

end Text

/-- The message about a symbol tells the number of the declaration and what is wrong. -/
theorem GrammarError.message_badSymbol_inj {n n' : Nat} {fault fault' : Symbol.Fault}
    (h : (badSymbol n fault).message = (badSymbol n' fault').message) :
    n = n' ∧ fault = fault' := by
  have hshape : ∀ n (fault : Symbol.Fault), (badSymbol n fault).message =
      Text.ofString "rule " ++ (Text.ofNat n ++ 58 :: 32 :: fault.message) := by
    intro n fault
    simp only [message, List.append_assoc]
    rfl
  rw [hshape, hshape] at h
  have htail := List.append_cancel_left h
  have hnumber : Text.ofNat n = Text.ofNat n' := by
    rw [← Text.takeWhile_ofNat_append n (b := 58) rfl (32 :: fault.message), htail,
      Text.takeWhile_ofNat_append n' rfl]
  refine ⟨?_, ?_⟩
  · rw [← Text.ofDigits_ofNat n, hnumber, Text.ofDigits_ofNat]
  · rw [hnumber] at htail
    have hmessage : fault.message = fault'.message := by
      simpa using List.append_cancel_left htail
    revert hmessage
    cases fault <;> cases fault' <;> decide

namespace Symbol

/-- What a declared symbol is: not empty, and not reserved. -/
def Proper (s : Symbol) : Prop :=
  s ≠ [] ∧ s ≠ endMark ∧ s ≠ goal ∧ s ≠ emptyMark

/-- The text that has a fault. -/
def Fault.text : Fault → Symbol
  | .blank => []
  | .endMark => Symbol.endMark
  | .goal => Symbol.goal
  | .emptyMark => Symbol.emptyMark

/-- Every fault is that of one text. -/
theorem fault?_eq_some {s : Symbol} {fault : Fault} : s.fault? = some fault ↔ s = fault.text := by
  constructor
  · intro h
    unfold fault? at h
    repeat' split at h
    all_goals cases h
    all_goals assumption
  · rintro rfl
    cases fault <;> decide

theorem not_proper_iff {s : Symbol} :
    ¬s.Proper ↔ s = [] ∨ s = endMark ∨ s = goal ∨ s = emptyMark := by
  simp only [Proper, ne_eq, not_and_or, not_not]

end Symbol

namespace Production

variable {p : Production}

/-- The fault of a production is that of its first symbol that has one. -/
theorem fault?_eq_some {fault : Symbol.Fault} :
    p.fault? = some fault ↔ ∃ front back, p.lhs :: p.rhs = front ++ fault.text :: back ∧
      ∀ s ∈ front, s.Proper := by
  simp only [fault?, List.findSome?_eq_some_iff, Symbol.fault?_eq_some, Symbol.fault?_eq_none]
  constructor
  · rintro ⟨front, s, back, hsymbols, rfl, hfront⟩
    exact ⟨front, back, hsymbols, hfront⟩
  · rintro ⟨front, back, hsymbols, hfront⟩
    exact ⟨front, fault.text, back, hsymbols, rfl, hfront⟩

theorem fault?_eq_none : p.fault? = none ↔ ∀ s ∈ p.lhs :: p.rhs, s.Proper := by
  simp only [fault?, List.findSome?_eq_none_iff, Symbol.fault?_eq_none, Symbol.Proper]

end Production

namespace Grammar

/-! ### Lists that are no grammar -/

/-- Why a list of productions is no grammar. -/
inductive Refuses : List Production → GrammarError → Prop
  /-- Nothing is declared. -/
  | empty : Refuses [] .empty
  /-- The symbols of earlier declarations are proper, and so are those of this declaration up to one
  that is not. -/
  | badSymbol {before after : List Production} {p : Production} {front back : List Symbol}
      {fault : Symbol.Fault} (hbefore : ∀ q ∈ before, ∀ s ∈ q.lhs :: q.rhs, s.Proper)
      (hfront : ∀ s ∈ front, s.Proper) (hsymbols : p.lhs :: p.rhs = front ++ fault.text :: back) :
      Refuses (before ++ p :: after) (.badSymbol (before.length + 1) fault)

/-- The search finds the first declaration with a fault. -/
theorem firstFault?_eq_some {rules : List Production} {fault : Symbol.Fault} :
    ∀ {n k : Nat}, firstFault? n rules = some (k, fault) ↔ ∃ before p after,
      rules = before ++ p :: after ∧ k = before.length + n ∧ p.fault? = some fault ∧
        ∀ q ∈ before, q.fault? = none := by
  induction rules with
  | nil => simp [firstFault?]
  | cons q rules ih =>
      intro n k
      rw [firstFault?]
      cases hq : q.fault? with
      | some found =>
          constructor
          · intro h
            cases h
            exact ⟨[], q, rules, rfl, (Nat.zero_add n).symm, hq, by simp⟩
          · rintro ⟨before, p, after, hrules, rfl, hp, hbefore⟩
            cases before with
            | nil =>
                cases hrules
                simp [Option.some.inj (hq.symm.trans hp)]
            | cons q' before =>
                cases hrules
                simp [hbefore q (by simp)] at hq
      | none =>
          simp only [ih]
          constructor
          · rintro ⟨before, p, after, rfl, rfl, hp, hbefore⟩
            refine ⟨q :: before, p, after, rfl, ?_, hp, by simpa [hq] using hbefore⟩
            rw [List.length_cons, Nat.add_assoc, Nat.add_comm 1]
          · rintro ⟨before, p, after, hrules, rfl, hp, hbefore⟩
            cases before with
            | nil =>
                cases hrules
                simp [hq] at hp
            | cons q' before =>
                cases hrules
                refine ⟨before, p, after, rfl, ?_, hp, fun r hr => hbefore r (by simp [hr])⟩
                rw [List.length_cons, Nat.add_assoc, Nat.add_comm 1]

/-- Productions are refused for the reason that they give, and for no other. -/
theorem ofRules_eq_error_iff {rules : List Production} {e : GrammarError} :
    ofRules rules = .error e ↔ Refuses rules e := by
  constructor
  · intro h
    unfold ofRules at h
    split at h
    · rename_i hempty
      cases h
      rw [hempty]
      exact .empty
    · split at h
      · rename_i declaration fault found
        cases h
        obtain ⟨before, p, after, rfl, rfl, hp, hbefore⟩ := firstFault?_eq_some.mp found
        obtain ⟨front, back, hsymbols, hfront⟩ := Production.fault?_eq_some.mp hp
        exact .badSymbol (fun q hq => Production.fault?_eq_none.mp (hbefore q hq)) hfront hsymbols
      · cases h
  · intro h
    cases h with
    | empty => rfl
    | @badSymbol before after p front back fault hbefore hfront hsymbols =>
        have hfound : firstFault? 1 (before ++ p :: after) = some (before.length + 1, fault) :=
          firstFault?_eq_some.mpr ⟨before, p, after, rfl, rfl,
            Production.fault?_eq_some.mpr ⟨front, back, hsymbols, hfront⟩,
            fun q hq => Production.fault?_eq_none.mpr (hbefore q hq)⟩
        rw [ofRules, dif_neg (by simp)]
        split
        · rename_i found
          cases hfound.symm.trans found
          rfl
        · rename_i found
          cases hfound.symm.trans found

/-- A list is refused if it declares nothing or a symbol of it is empty or reserved. -/
theorem exists_ofRules_eq_error_iff {rules : List Production} :
    (∃ e, ofRules rules = .error e) ↔
      rules = [] ∨ ∃ p ∈ rules, ∃ s ∈ p.lhs :: p.rhs, ¬s.Proper := by
  have hok : (∃ g, ofRules rules = .ok g) ↔
      rules ≠ [] ∧ ∀ p ∈ rules, ∀ s ∈ p.lhs :: p.rhs, s.Proper := by
    simp only [ofRules_eq_ok, ← Production.fault?_eq_none]
    constructor
    · rintro ⟨g, rfl⟩
      exact ⟨g.nonempty, g.faultless⟩
    · rintro ⟨hne, hfaultless⟩
      exact ⟨⟨rules, hne, hfaultless⟩, rfl⟩
  have herror : (∃ e, ofRules rules = .error e) ↔ ¬∃ g, ofRules rules = .ok g := by
    cases ofRules rules <;> simp
  rw [herror, hok]
  simp only [not_and_or, not_forall, not_not, ne_eq, exists_prop]

/-! ### Indexes -/

/-- What is looked up in a grammar: the symbols with a production, the numbers of the productions of
a symbol, and the other symbols. -/
structure Indexes where
  nonTerminals : SymbolSet
  numbers : SymbolMap (List Nat)
  terminals : SymbolSet

namespace Indexes

/-- A production is entered under its left-hand side. -/
def addRule (x : Indexes) (p : Production) (id : Nat) : Indexes :=
  { x with
    nonTerminals := x.nonTerminals.insert p.lhs
    numbers := x.numbers.insert p.lhs (x.numbers.getD p.lhs [] ++ [id]) }

/-- A symbol of a right-hand side is entered if it has no production. -/
def addSymbol (x : Indexes) (s : Symbol) : Indexes :=
  if x.nonTerminals.contains s then x else { x with terminals := x.terminals.insert s }

/-- The indexes are filled in two loops: over the productions, and when all of these are entered
over the symbols of their right-hand sides. -/
def fill (rules : List Production) : Indexes :=
  let x := rules.zipIdx.foldl (fun x (p, id) => x.addRule p id) ⟨∅, ∅, ∅⟩
  rules.foldl (fun x p => p.rhs.foldl addSymbol x) x

theorem foldl_addRule (rules : List (Production × Nat)) : ∀ x : Indexes,
    (rules.foldl (fun x (p, id) => x.addRule p id) x).terminals = x.terminals ∧
      ∀ s : Symbol,
        (s ∈ (rules.foldl (fun x (p, id) => x.addRule p id) x).nonTerminals ↔
          s ∈ x.nonTerminals ∨ ∃ q ∈ rules, q.1.lhs = s) ∧
        (rules.foldl (fun x (p, id) => x.addRule p id) x).numbers.getD s [] =
          x.numbers.getD s [] ++ (rules.filter (·.1.lhs == s)).map (·.2) := by
  induction rules with
  | nil => simp
  | cons q rules ih =>
      intro x
      obtain ⟨hterminals, hrest⟩ := ih (x.addRule q.1 q.2)
      refine ⟨hterminals, fun s => ?_⟩
      obtain ⟨hmem, hnumbers⟩ := hrest s
      refine ⟨?_, ?_⟩
      · rw [List.foldl_cons, hmem, addRule, Std.ExtTreeSet.mem_insert,
          Std.LawfulEqCmp.compare_eq_iff_eq]
        simp only [List.mem_cons, exists_eq_or_imp]
        rw [or_left_comm, or_assoc]
      · rw [List.foldl_cons, hnumbers, addRule, Std.ExtTreeMap.getD_insert]
        by_cases hs : q.1.lhs = s
        · subst hs
          simp
        · rw [if_neg (by simpa using hs), List.filter_cons_of_neg (by simpa using hs)]

theorem foldl_addSymbol (symbols : List Symbol) : ∀ x : Indexes,
    (symbols.foldl addSymbol x).nonTerminals = x.nonTerminals ∧
      (symbols.foldl addSymbol x).numbers = x.numbers ∧
      ∀ s : Symbol, s ∈ (symbols.foldl addSymbol x).terminals ↔
        s ∈ x.terminals ∨ s ∉ x.nonTerminals ∧ s ∈ symbols := by
  induction symbols with
  | nil => simp
  | cons t symbols ih =>
      intro x
      obtain ⟨hnon, hnumbers, hmem⟩ := ih (x.addSymbol t)
      rw [List.foldl_cons, hnon, hnumbers]
      simp only [hmem, List.mem_cons]
      by_cases ht : x.nonTerminals.contains t = true
      · have hold : t ∈ x.nonTerminals := ht
        rw [addSymbol, if_pos ht]
        refine ⟨rfl, rfl, fun s => or_congr_right (and_congr_right fun hs => ?_)⟩
        refine (or_iff_right fun heq => hs ?_).symm
        rwa [heq]
      · have hnew : t ∉ x.nonTerminals := ht
        rw [addSymbol, if_neg ht]
        refine ⟨rfl, rfl, fun s => ?_⟩
        rw [Std.ExtTreeSet.mem_insert, Std.LawfulEqCmp.compare_eq_iff_eq]
        by_cases hs : t = s
        · subst hs
          simp [hnew]
        · simp [hs, Ne.symm hs]

/-- The filled indexes hold what is otherwise searched for. -/
theorem fill_rules (g : Grammar) :
    (fill g.rules).nonTerminals = g.nonTerminals ∧ (fill g.rules).terminals = g.terminals ∧
      ∀ s : Symbol, (fill g.rules).numbers.getD s [] = g.rulesOf s := by
  obtain ⟨hempty, hfirst⟩ := foldl_addRule g.rules.zipIdx ⟨∅, ∅, ∅⟩
  have hnon : ∀ s : Symbol, s ∈ (g.rules.zipIdx.foldl (fun x (p, id) => addRule x p id)
      ⟨∅, ∅, ∅⟩).nonTerminals ↔ g.isNonTerminal s = true := by
    intro s
    rw [(hfirst s).1, isNonTerminal_iff]
    simp [List.mem_iff_getElem?]
  rw [fill, ← List.foldl_flatMap]
  obtain ⟨hnon', hnumbers', hterminals'⟩ := foldl_addSymbol (g.rules.flatMap (·.rhs))
    (g.rules.zipIdx.foldl (fun x (p, id) => addRule x p id) ⟨∅, ∅, ∅⟩)
  refine ⟨?_, ?_, fun s => ?_⟩
  · refine Std.ExtTreeSet.ext_mem fun s => ?_
    rw [hnon', hnon, mem_nonTerminals]
  · refine Std.ExtTreeSet.ext_mem fun s => ?_
    rw [hterminals', hempty, hnon, mem_terminals]
    simp
  · rw [hnumbers', (hfirst s).2]
    simp [rulesOf]

end Indexes

/-! ### Lists that are one -/

/-- What a grammar is made of, and how its symbols and productions are found. -/
structure Augments (g : Grammar) (rules : List Production) : Prop where
  /-- The goal production expands to the left-hand side of the first declaration. -/
  goal : ∃ first, rules.head? = some first ∧ g.rule? 0 = some ⟨Symbol.goal, [first.lhs]⟩
  /-- The declarations follow it in their order. -/
  declared : ∀ i, g.rule? (i + 1) = rules[i]?
  /-- A symbol of a right-hand side is a terminal or a non-terminal, and not both. -/
  divided : ∀ p ∈ g.rules, ∀ s ∈ p.rhs, Xor (s ∈ g.terminals) (s ∈ g.nonTerminals)
  /-- A non-terminal is what some production expands, whichever way it is asked for. -/
  nonTerminal : ∀ s, (s ∈ g.nonTerminals ↔ ∃ p ∈ g.rules, p.lhs = s) ∧
    (g.isNonTerminal s = true ↔ ∃ p ∈ g.rules, p.lhs = s)
  terminal_proper : ∀ s ∈ g.terminals, s.Proper
  declared_proper : ∀ p ∈ rules, ∀ s ∈ p.lhs :: p.rhs, s.Proper
  /-- The goal symbol is expanded only. -/
  goal_notMem : ∀ p ∈ g.rules, Symbol.goal ∉ p.rhs
  /-- The numbers of the productions of a symbol, in increasing order. -/
  rulesOf : ∀ s, (g.rulesOf s).Pairwise (· < ·) ∧
    (∀ r, r ∈ g.rulesOf s ↔ ∃ p, g.rule? r = some p ∧ p.lhs = s) ∧
    (g.rulesOf s = [] ↔ s ∉ g.nonTerminals)
  /-- Indexes that are filled from the productions hold the same. -/
  indexed : (Indexes.fill g.rules).nonTerminals = g.nonTerminals ∧
    (Indexes.fill g.rules).terminals = g.terminals ∧
    ∀ s : Symbol, (Indexes.fill g.rules).numbers.getD s [] = g.rulesOf s

theorem pairwise_rulesOf (g : Grammar) (s : Symbol) : (g.rulesOf s).Pairwise (· < ·) := by
  have hnumbers : (g.rules.zipIdx.map Prod.snd).Pairwise (· < ·) := by
    rw [List.zipIdx_map_snd]
    exact List.pairwise_lt_range'
  exact List.pairwise_map.mpr ((List.pairwise_map.mp hnumbers).filter _)

theorem rulesOf_eq_nil_iff {g : Grammar} {s : Symbol} :
    g.rulesOf s = [] ↔ s ∉ g.nonTerminals := by
  rw [List.eq_nil_iff_forall_not_mem, mem_nonTerminals, isNonTerminal_iff]
  simp only [mem_rulesOf]
  constructor
  · rintro h ⟨p, hp, hs⟩
    obtain ⟨r, hr⟩ := exists_rule?_of_mem hp
    exact h r ⟨p, hr, hs⟩
  · rintro h r ⟨p, hr, hs⟩
    exact h ⟨p, mem_rules_of_rule? hr, hs⟩

/-- A list that is not refused is augmented. -/
theorem augments_of_ofRules {g : Grammar} {rules : List Production} (h : ofRules rules = .ok g) :
    g.Augments rules := by
  obtain rfl := ofRules_eq_ok.mp h
  refine ⟨?_, fun i => rfl, ?_, fun s => ⟨mem_nonTerminals.trans isNonTerminal_iff,
    isNonTerminal_iff⟩, fun s hs => Symbol.fault?_eq_none.mp (terminal_fault? hs),
    fun p hp => Production.fault?_eq_none.mp (g.faultless p hp), fun p hp => goal_notMem_rhs hp,
    fun s => ⟨g.pairwise_rulesOf s, fun r => mem_rulesOf, rulesOf_eq_nil_iff⟩, Indexes.fill_rules g⟩
  · exact ⟨g.declared.head g.nonempty, List.head?_eq_some_head g.nonempty, rfl⟩
  · intro p hp s hs
    rw [mem_terminals, mem_nonTerminals]
    cases g.isNonTerminal s with
    | true => exact Or.inr ⟨rfl, fun h => by cases h.1⟩
    | false => exact Or.inl ⟨⟨rfl, p, hp, hs⟩, by simp⟩

/-- **Every list of productions is either refused or augmented.** It is refused if it is empty or
has an empty or reserved symbol, and then the error names the first declaration with such a symbol
and the first such symbol of it. -/
theorem ofRules_refuses_or_augments (rules : List Production) :
    ((∃ e, ofRules rules = .error e) ↔ rules = [] ∨ ∃ p ∈ rules, ∃ s ∈ p.lhs :: p.rhs,
      s = [] ∨ s = Symbol.endMark ∨ s = Symbol.goal ∨ s = Symbol.emptyMark) ∧
    (∀ e, ofRules rules = .error e ↔ Refuses rules e) ∧
    (∀ (n n' : Nat) (fault fault' : Symbol.Fault),
      (GrammarError.badSymbol n fault).message = (GrammarError.badSymbol n' fault').message →
        n = n' ∧ fault = fault') ∧
    ∀ g, ofRules rules = .ok g → g.Augments rules := by
  refine ⟨?_, fun e => ofRules_eq_error_iff, fun n n' fault fault' =>
    GrammarError.message_badSymbol_inj, fun g => augments_of_ofRules⟩
  simp only [exists_ofRules_eq_error_iff, Symbol.not_proper_iff]

/-- Declarations are numbered from 1, and of two faults of one declaration the first is told. -/
example : (ofRules [⟨"S", ["A"]⟩, ⟨"A", ["$", ""]⟩]).map Grammar.declared =
    .error (.badSymbol 2 .endMark) := by
  decide +kernel

end Grammar

end ShiftReduce
