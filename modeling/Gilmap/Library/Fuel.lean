import Mathlib.Data.Nat.Notation
import Mathlib.Tactic

/-! # Enough fuel

Interpreters with two supplies of fuel: one for the statements, which every statement gets
whole, and one for the loop at hand, of which each turn takes one. What holds of a run holds
for all supplies from some point on.
-/
namespace Gilmap.Library

/-- `P n j` for all supplies `n` of the statements and `j` of the loop, from some point on. -/
def Enough (P : ℕ → ℕ → Prop) : Prop := ∃ m, ∀ n ≥ m, ∀ j ≥ m, P n j

namespace Enough
variable {P Q : ℕ → ℕ → Prop}

theorem always (h : ∀ n j, P n j) : Enough P := ⟨0, fun n _ j _ => h n j⟩

theorem exists_self (h : Enough P) : ∃ n, P n n := by
  obtain ⟨m, hm⟩ := h
  exact ⟨m, hm m le_rfl m le_rfl⟩

theorem imp (h : Enough P) (hPQ : ∀ n j, P n j → Q n j) : Enough Q := by
  obtain ⟨m, hm⟩ := h
  exact ⟨m, fun n hn j hj => hPQ n j (hm n hn j hj)⟩

/-- A statement that begins a loop gives it the supply of the statements. -/
theorem enter (h : Enough P) (hPQ : ∀ n j, P n n → Q n j) : Enough Q := by
  obtain ⟨m, hm⟩ := h
  exact ⟨m, fun n hn j _ => hPQ n j (hm n hn n hn)⟩

theorem and (h : Enough P) (h' : Enough Q) : Enough fun n j => P n j ∧ Q n j := by
  obtain ⟨m, hm⟩ := h
  obtain ⟨m', hm'⟩ := h'
  exact ⟨max m m', fun n hn j hj => ⟨hm n (by omega) j (by omega), hm' n (by omega) j (by omega)⟩⟩

/-- A turn of the loop takes one from its supply. -/
theorem turn (h : Enough P) (hPQ : ∀ n j, P n j → Q n (j + 1)) : Enough Q := by
  obtain ⟨m, hm⟩ := h
  refine ⟨m + 1, fun n hn j hj => ?_⟩
  obtain ⟨j, rfl⟩ : ∃ i, j = i + 1 := ⟨j - 1, by omega⟩
  exact hPQ n j (hm n (by omega) j (by omega))

/-- The loop ends at its header. -/
theorem last (h : ∀ n j, P n (j + 1)) : Enough P := (always fun _ _ => trivial).turn fun n j _ => h n j

end Enough

end Gilmap.Library
