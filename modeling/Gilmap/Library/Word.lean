import Mathlib.Tactic

/-! # Integers in machine words

A word of width `w` holds the integers from `-2 ^ (w - 1)` to `2 ^ (w - 1) - 1`. As long as
a result fits, an operation on words is the operation on the integers they hold; division is
the exception, since words are divided towards zero.
-/
namespace Gilmap.Library

/-- The integer has a word of width `w`. -/
def Fits (w : ℕ) (n : ℤ) : Prop := -2 ^ (w - 1) ≤ n ∧ n < 2 ^ (w - 1)

instance (w : ℕ) (n : ℤ) : Decidable (Fits w n) := inferInstanceAs (Decidable (_ ∧ _))

/-- Rounding down and towards zero give the same quotient. -/
def EvenQuotient (a b : ℤ) : Prop := b ∣ a ∨ 0 ≤ a * b

instance (a b : ℤ) : Decidable (EvenQuotient a b) := inferInstanceAs (Decidable (_ ∨ _))

section Words
variable {w : ℕ} {a b : BitVec w} {m n : ℤ}

theorem fits_toInt (a : BitVec w) : Fits w a.toInt :=
  ⟨BitVec.le_toInt a, BitVec.toInt_lt⟩

theorem Fits.bmod_eq (hw : 0 < w) (h : Fits w n) : n.bmod (2 ^ w) = n := by
  obtain ⟨k, rfl⟩ : ∃ k, w = k + 1 := ⟨w - 1, by omega⟩
  obtain ⟨hlo, hhi⟩ := h
  simp only [Nat.add_sub_cancel] at hlo hhi
  have hpow : ((2 ^ (k + 1) : ℕ) : ℤ) = 2 * 2 ^ k := by push_cast; ring
  apply Int.bmod_eq_of_le_mul_two
  · rw [hpow]
    linarith
  · rw [hpow]
    linarith

theorem Fits.mono {v : ℕ} (hv : 0 < v) (hvw : v ≤ w) (h : Fits v n) : Fits w n := by
  have hpow : (2 : ℤ) ^ (v - 1) ≤ 2 ^ (w - 1) := pow_le_pow_right₀ (by norm_num) (by omega)
  exact ⟨by linarith [h.1], by linarith [h.2]⟩

theorem toInt_ofInt_of_fits (hw : 0 < w) (h : Fits w n) : (BitVec.ofInt w n).toInt = n := by
  rw [BitVec.toInt_ofInt, h.bmod_eq hw]

theorem eq_ofInt (h : a.toInt = n) : a = BitVec.ofInt w n := by
  rw [← h, BitVec.ofInt_toInt]

theorem toInt_add_of_fits (hw : 0 < w) (ha : a.toInt = m) (hb : b.toInt = n)
    (h : Fits w (m + n)) : (a + b).toInt = m + n := by
  rw [BitVec.toInt_add, ha, hb, h.bmod_eq hw]

theorem toInt_sub_of_fits (hw : 0 < w) (ha : a.toInt = m) (hb : b.toInt = n)
    (h : Fits w (m - n)) : (a - b).toInt = m - n := by
  rw [BitVec.toInt_sub, ha, hb, h.bmod_eq hw]

theorem toInt_mul_of_fits (hw : 0 < w) (ha : a.toInt = m) (hb : b.toInt = n)
    (h : Fits w (m * n)) : (a * b).toInt = m * n := by
  rw [BitVec.toInt_mul, ha, hb, h.bmod_eq hw]

theorem toInt_neg_of_fits (hw : 0 < w) (ha : a.toInt = m) (h : Fits w (-m)) :
    (-a).toInt = -m := by
  rw [BitVec.toInt_neg, ha, h.bmod_eq hw]

theorem toInt_sdiv_of_fits (hw : 0 < w) (ha : a.toInt = m) (hb : b.toInt = n)
    (h : Fits w (m.tdiv n)) : (a.sdiv b).toInt = m.tdiv n := by
  rw [BitVec.toInt_sdiv, ha, hb, h.bmod_eq hw]

theorem toInt_srem_eq (ha : a.toInt = m) (hb : b.toInt = n) : (a.srem b).toInt = m.tmod n := by
  rw [BitVec.toInt_srem, ha, hb]

theorem toInt_eq_zero_iff : a.toInt = 0 ↔ a = 0 := by
  rw [← BitVec.toInt_inj, BitVec.ofNat_eq_ofNat, BitVec.toInt_zero]

/-- The one quotient that does not fit. -/
theorem not_fits_intMin_tdiv (hw : 0 < w) (ha : a = BitVec.intMin w) (hb : b = BitVec.allOnes w) :
    ¬ Fits w (a.toInt.tdiv b.toInt) := by
  obtain ⟨k, rfl⟩ : ∃ k, w = k + 1 := ⟨w - 1, by omega⟩
  subst ha hb
  rw [BitVec.toInt_intMin, BitVec.toInt_allOnes, if_pos (by omega)]
  have hlt : (2 ^ k % 2 ^ (k + 1) : ℕ) = 2 ^ k := Nat.mod_eq_of_lt (by gcongr <;> omega)
  intro h
  have := h.2
  simp only [Nat.add_sub_cancel, hlt, Int.tdiv_neg, Int.tdiv_one, neg_neg] at this
  push_cast at this
  exact lt_irrefl _ this

end Words

/-! ## Quotients -/

section Quotients
variable {a b : ℤ}

theorem fdiv_eq_tdiv_iff (hb : b ≠ 0) : a.fdiv b = a.tdiv b ↔ EvenQuotient a b := by
  rw [Int.fdiv_eq_tdiv]
  unfold EvenQuotient
  by_cases hdvd : b ∣ a
  · simp [hdvd]
  · have ha : a ≠ 0 := by
      rintro rfl
      exact hdvd (dvd_zero b)
    rcases lt_or_gt_of_ne ha with hneg | hpos
    · rcases lt_or_gt_of_ne hb with hb | hb
      · have : 0 ≤ a * b := (mul_pos_of_neg_of_neg hneg hb).le
        simp [hdvd, this, hneg.not_ge, hb.not_ge, Int.sign_eq_neg_one_of_neg hb]
      · have : ¬ 0 ≤ a * b := (mul_neg_of_neg_of_pos hneg hb).not_ge
        simp [hdvd, this, hneg.not_ge, hb.le, Int.sign_eq_one_of_pos hb]
    · rcases lt_or_gt_of_ne hb with hb | hb
      · have : ¬ 0 ≤ a * b := (mul_neg_of_pos_of_neg hpos hb).not_ge
        simp [hdvd, this, hpos.le, hb.not_ge]
      · have : 0 ≤ a * b := (mul_pos hpos hb).le
        simp [hdvd, this, hpos.le, hb.le]

theorem EvenQuotient.fmod_eq (hb : b ≠ 0) (h : EvenQuotient a b) : a.fmod b = a.tmod b := by
  rw [Int.fmod_def, Int.tmod_def, (fdiv_eq_tdiv_iff hb).mpr h]

end Quotients

end Gilmap.Library
