import Mathlib.Data.Finset.Card
import ShiftReduce.Saturation

/-!
# ShiftReduce.Proofs.Saturation

**When saturation reaches a fixed point.** A round either changes nothing or raises a measure that
cannot pass a bound (`Grows`), so as many rounds as the bound leaves room for are enough
(`step_saturate`). The measures in use count the members of a finite carrier that a set holds, so
their bound is the size of the carrier.

A round may itself be a fold of small additions. A fold of additions that grow grows
(`Grows.foldl`), and at a fixed point none of them adds anything (`Grows.foldl_fixed`).

At a fixed point the bound on the rounds has not been felt: `Rounds` repeats the step without a
bound, and ends with the same result (`rounds_saturate`).
-/

namespace ShiftReduce

variable {α β : Type}

/-- Nothing changed, or the measure went up. -/
def Grows (μ : α → Nat) (x y : α) : Prop :=
  y = x ∨ μ x < μ y

namespace Grows

variable {μ : α → Nat}

theorem refl (x : α) : Grows μ x x := Or.inl rfl

theorem le {x y : α} (h : Grows μ x y) : μ x ≤ μ y := by
  rcases h with rfl | h
  · exact Nat.le_refl _
  · exact Nat.le_of_lt h

theorem trans {x y z : α} (h₁ : Grows μ x y) (h₂ : Grows μ y z) : Grows μ x z := by
  rcases h₁ with rfl | h₁
  · exact h₂
  · exact Or.inr (Nat.lt_of_lt_of_le h₁ h₂.le)

/-- A change that grows and is undone was no change. -/
theorem eq_of_eq {x y z : α} (h₁ : Grows μ x y) (h₂ : Grows μ y z) (h : z = x) : y = x := by
  rcases h₁ with h₁ | h₁
  · exact h₁
  · have hle := h₂.le
    subst h
    omega

section Fold

variable {P : α → Prop} {f : α → β → α} {l : List β}

/-- An invariant of every addition is one of the fold. -/
theorem foldl_invariant (hP : ∀ b ∈ l, ∀ x, P x → P (f x b)) {x : α} (hx : P x) :
    P (l.foldl f x) := by
  induction l generalizing x with
  | nil => exact hx
  | cons b l ih =>
      exact ih (fun c hc => hP c (by simp [hc])) (hP b (by simp) x hx)

/-- Additions that grow make a fold that grows. -/
theorem foldl (hP : ∀ b ∈ l, ∀ x, P x → P (f x b)) (hf : ∀ b ∈ l, ∀ x, P x → Grows μ x (f x b))
    {x : α} (hx : P x) : Grows μ x (l.foldl f x) := by
  induction l generalizing x with
  | nil => exact refl x
  | cons b l ih =>
      have hhead := hf b (by simp) x hx
      have htail := ih (fun c hc => hP c (by simp [hc])) (fun c hc => hf c (by simp [hc]))
        (hP b (by simp) x hx)
      exact hhead.trans htail

/-- A fixed point of the fold is one of each addition. -/
theorem foldl_fixed (hP : ∀ b ∈ l, ∀ x, P x → P (f x b))
    (hf : ∀ b ∈ l, ∀ x, P x → Grows μ x (f x b)) {x : α} (hx : P x) (hfix : l.foldl f x = x) :
    ∀ b ∈ l, f x b = x := by
  induction l with
  | nil => simp
  | cons b l ih =>
      have hP' : ∀ c ∈ l, ∀ x, P x → P (f x c) := fun c hc => hP c (by simp [hc])
      have hf' : ∀ c ∈ l, ∀ x, P x → Grows μ x (f x c) := fun c hc => hf c (by simp [hc])
      have hb : f x b = x :=
        (hf b (by simp) x hx).eq_of_eq (Grows.foldl hP' hf' (hP b (by simp) x hx)) hfix
      have htail : l.foldl f x = x := by simpa [hb] using hfix
      intro c hc
      rcases List.mem_cons.mp hc with rfl | hc
      · exact hb
      · exact ih hP' hf' htail c hc

end Fold

/-- A larger set holds more of a carrier, if what was added belongs to the carrier. -/
theorem card_filter {γ : Type} (carrier : Finset γ) {p q : γ → Prop} [DecidablePred p]
    [DecidablePred q] (hpq : ∀ a ∈ carrier, p a → q a) {a : γ} (ha : a ∈ carrier) (hq : q a)
    (hp : ¬p a) : (carrier.filter p).card < (carrier.filter q).card := by
  apply Finset.card_lt_card
  refine Finset.ssubset_iff_of_subset ?_ |>.mpr ⟨a, by simp [ha, hq], by simp [hp]⟩
  intro b hb
  simp only [Finset.mem_filter] at hb ⊢
  exact ⟨hb.1, hpq b hb.1 hb.2⟩

end Grows

section Saturate

variable [DecidableEq α] {step : α → α} {P : α → Prop}

/-- At a fixed point no round is made. -/
theorem saturate_of_fixed {x : α} (h : step x = x) (n : Nat) : saturate step n x = x := by
  cases n with
  | zero => rfl
  | succ n => rw [saturate, if_pos h]

/-- What a round preserves holds of the result. -/
theorem saturate_invariant (hP : ∀ x, P x → P (step x)) (n : Nat) {x : α} (hx : P x) :
    P (saturate step n x) := by
  induction n generalizing x with
  | zero => exact hx
  | succ n ih =>
      rw [saturate]
      split
      · exact hx
      · exact ih (hP x hx)

/-- With rounds for everything that the measure leaves room for, the result is a fixed point. -/
theorem step_saturate {μ : α → Nat} {bound : Nat} (hP : ∀ x, P x → P (step x))
    (hgrows : ∀ x, P x → Grows μ x (step x)) (hbound : ∀ x, μ x ≤ bound) {n : Nat} {x : α}
    (hx : P x) (hn : bound ≤ μ x + n) : step (saturate step n x) = saturate step n x := by
  induction n generalizing x with
  | zero =>
      rcases hgrows x hx with h | h
      · exact h
      · have := hbound (step x)
        omega
  | succ n ih =>
      rw [saturate]
      split
      · assumption
      · rename_i hne
        rcases hgrows x hx with h | h
        · exact absurd h hne
        · exact ih (hP x hx) (by omega)

/-- Rounds without a bound. They end where a round changes nothing. -/
inductive Rounds (step : α → α) : α → α → Prop
  | done {x : α} (h : step x = x) : Rounds step x x
  | round {x y : α} (h : step x ≠ x) (rest : Rounds step (step x) y) : Rounds step x y

/-- A bound that leads to a fixed point makes no difference. -/
theorem rounds_saturate {n : Nat} {x : α}
    (h : step (saturate step n x) = saturate step n x) : Rounds step x (saturate step n x) := by
  induction n generalizing x with
  | zero => exact .done h
  | succ n ih =>
      rw [saturate] at h ⊢
      split
      · exact .done (by assumption)
      · rename_i hne
        rw [if_neg hne] at h
        exact .round hne (ih h)

end Saturate

end ShiftReduce
