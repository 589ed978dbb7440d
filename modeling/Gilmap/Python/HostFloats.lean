import Gilmap.Library.Word
import Gilmap.Python.Semantics

/-! # Python's floats on the host

Floats as bit patterns. Truncation and the comparison with an integer are read off the bits
and exact; the arithmetic is the machine's.
-/
namespace Gilmap
open Library

/-- Where Python has a value, its conversions, powers and `math` functions give what the
instructions and the calls of the compiled code give, and `int()` of a float that is equal to an
integer is that integer. -/
structure PyFloats.Lawful {F : Type} (py : PyFloats F) : Prop where
  trunc : ∀ {n x}, py.cmpInt .eq n x = true → py.toInt x = .ok n
  ofInt : ∀ {n x}, py.ofInt n = .ok x → Fits 64 n → py.fl.ofInt (BitVec.ofInt 64 n) = x
  toInt : ∀ {x n}, py.toInt x = .ok n → Fits 64 n → py.fl.toInt x = .ok (BitVec.ofInt 64 n)
  pow : ∀ {x y z}, py.pow x y = .ok (some z) → py.fl.pow x y = z
  mathFloat : ∀ {fn x y}, py.math fn (.float x) = .ok y → py.fl.libm fn.libm x = y
  mathInt : ∀ {fn n y}, py.math fn (.int n) = .ok y → Fits 64 n →
    py.fl.libm fn.libm (py.fl.ofInt (BitVec.ofInt 64 n)) = y

/-- A finite float as a numerator over a power of two; `none` for infinities and NaNs. -/
def floatFraction (b : BitVec 64) : Option (ℤ × ℕ) :=
  let exponent := b.toNat / 2 ^ 52 % 2048
  let fraction : ℕ := b.toNat % 2 ^ 52
  let significand : ℕ := if exponent = 0 then fraction else 2 ^ 52 + fraction
  let num : ℤ := if b.msb then -(significand : ℤ) else significand
  if exponent = 2047 then none
  else if exponent ≤ 1075 then some (num, 1075 - max exponent 1)
  else some (num * 2 ^ (exponent - 1075), 0)

def isNanBits (b : BitVec 64) : Bool := b.toNat / 2 ^ 52 % 2048 = 2047 ∧ b.toNat % 2 ^ 52 ≠ 0

/-- `int(x)` -/
def truncFloat (b : BitVec 64) : Except PyExc ℤ :=
  match floatFraction b with
  | some (num, den) => .ok (num.tdiv (2 ^ den))
  | none => .error (if isNanBits b then .valueError else .overflowError)

/-- `n <op> x` -/
def cmpIntFloat (op : CmpOp) (n : ℤ) (b : BitVec 64) : Bool :=
  match floatFraction b with
  | some (num, den) => op.onInts (n * 2 ^ den) num
  | none => if isNanBits b then op = .ne else op.onInts 0 (if b.msb then -1 else 1)

/-! ## Integers as floats -/

/-- The low 63 bits of the float next to `s`, which is not zero; a tie goes to the even
significand. -/
def roundNatBits (s : ℕ) : ℕ :=
  let e := Nat.log2 s
  if e ≤ 52 then (e + 1022) * 2 ^ 52 + s * 2 ^ (52 - e)
  else
    let unit := 2 ^ (e - 52)
    let q := s / unit
    let r := s % unit
    let q := if unit < 2 * r ∨ 2 * r = unit ∧ q % 2 = 1 then q + 1 else q
    (e + 1022) * 2 ^ 52 + q

/-- `float(n)` -/
def floatOfInt (n : ℤ) : Except PyExc (BitVec 64) :=
  if n = 0 then .ok 0
  else
    let bits := roundNatBits n.natAbs
    if 2047 * 2 ^ 52 ≤ bits then .error .overflowError
    else .ok (BitVec.ofNat 64 ((if n < 0 then 2 ^ 63 else 0) + bits))

/-- The bits of a normal number, by sign, exponent and significand. -/
theorem floatFraction_normal {sign e sig : ℕ} (hsign : sign ≤ 1) (hlo : 2 ^ 52 ≤ sig)
    (hhi : sig < 2 ^ 53) (he : e ≤ 1023) :
    floatFraction (BitVec.ofNat 64 (sign * 2 ^ 63 + ((e + 1022) * 2 ^ 52 + sig))) =
      if e ≤ 52 then some ((if sign = 1 then -(sig : ℤ) else sig), 52 - e)
      else some ((if sign = 1 then -(sig : ℤ) else sig) * 2 ^ (e - 52), 0) := by
  have hlt : sign * 2 ^ 63 + ((e + 1022) * 2 ^ 52 + sig) < 2 ^ 64 := by omega
  have htoNat : (BitVec.ofNat 64 (sign * 2 ^ 63 + ((e + 1022) * 2 ^ 52 + sig))).toNat =
      sign * 2 ^ 63 + ((e + 1022) * 2 ^ 52 + sig) := by
    rw [BitVec.toNat_ofNat, Nat.mod_eq_of_lt hlt]
  have hexponent : (sign * 2 ^ 63 + ((e + 1022) * 2 ^ 52 + sig)) / 2 ^ 52 % 2048 = e + 1023 := by
    omega
  have hfraction : (sign * 2 ^ 63 + ((e + 1022) * 2 ^ 52 + sig)) % 2 ^ 52 = sig - 2 ^ 52 := by
    omega
  have hmsb : (BitVec.ofNat 64 (sign * 2 ^ 63 + ((e + 1022) * 2 ^ 52 + sig))).msb =
      decide (sign = 1) := by
    rw [BitVec.msb_eq_decide, htoNat]
    simp only [decide_eq_decide]
    omega
  have hsig : 2 ^ 52 + (sig - 2 ^ 52) = sig := by omega
  simp only [floatFraction, htoNat, hexponent, hfraction, hmsb]
  have h0 : ¬ e + 1023 = 0 := by omega
  have h2047 : ¬ e + 1023 = 2047 := by omega
  simp only [h0, h2047, if_false, hsig, decide_eq_true_eq]
  by_cases h : e ≤ 52
  · have h1 : e + 1023 ≤ 1075 := by omega
    have hden : 1075 - max (e + 1023) 1 = 52 - e := by omega
    simp only [h, h1, hden, if_true]
  · have h1 : ¬ e + 1023 ≤ 1075 := by omega
    have hshift : e + 1023 - 1075 = e - 52 := by omega
    simp only [h, h1, hshift, if_false]

/-- The magnitude of a finite float is a significand of 53 bits over or times a power of two. -/
theorem floatFraction_bound {x : BitVec 64} {num : ℤ} {den : ℕ}
    (h : floatFraction x = some (num, den)) :
    num.natAbs < 2 ^ 53 ∨ den = 0 ∧ ∃ sig t : ℕ, num.natAbs = sig * 2 ^ t ∧ sig < 2 ^ 53 ∧ t ≤ 971 := by
  have hx := x.isLt
  simp only [floatFraction] at h
  generalize hexponent : x.toNat / 2 ^ 52 % 2048 = exponent at h
  have hle : exponent < 2048 := by omega
  generalize hsig : (if exponent = 0 then x.toNat % 2 ^ 52 else 2 ^ 52 + x.toNat % 2 ^ 52) = sig at h
  have hlt : sig < 2 ^ 53 := by
    rw [← hsig]
    split <;> omega
  split at h
  · cases h
  · split at h
    · cases h
      left
      split <;> simpa using hlt
    · cases h
      right
      refine ⟨rfl, sig, exponent - 1075, ?_, hlt, by omega⟩
      rw [Int.natAbs_mul, Int.natAbs_pow]
      split <;> simp

theorem cmpIntFloat_eq_iff {n : ℤ} {x : BitVec 64} :
    cmpIntFloat .eq n x = true ↔
      ∃ num den, floatFraction x = some (num, den) ∧ n * 2 ^ den = num := by
  cases hx : floatFraction x with
  | some fraction =>
    obtain ⟨num, den⟩ := fraction
    simp [cmpIntFloat, hx, CmpOp.onInts, eq_comm]
  | none =>
    cases hnan : isNanBits x <;> cases hsign : x.msb <;>
      simp [cmpIntFloat, hx, hnan, hsign, CmpOp.onInts]

/-- A float that is an integer is what `int` makes of it. -/
theorem truncFloat_of_eq {n : ℤ} {x : BitVec 64} (h : cmpIntFloat .eq n x = true) :
    truncFloat x = .ok n := by
  obtain ⟨num, den, hx, rfl⟩ := cmpIntFloat_eq_iff.mp h
  simp only [truncFloat, hx]
  rw [Int.mul_tdiv_cancel _ (by positivity)]

/-- The value of `roundNatBits` where nothing is rounded away. -/
theorem roundNatBits_exact {s : ℕ} (hs : s ≠ 0)
    (hdvd : 52 < Nat.log2 s → 2 ^ (Nat.log2 s - 52) ∣ s) :
    ∃ sig, 2 ^ 52 ≤ sig ∧ sig < 2 ^ 53 ∧ roundNatBits s = (Nat.log2 s + 1022) * 2 ^ 52 + sig ∧
      (Nat.log2 s ≤ 52 → sig = s * 2 ^ (52 - Nat.log2 s)) ∧
      (52 < Nat.log2 s → s = sig * 2 ^ (Nat.log2 s - 52)) := by
  have hlo := Nat.log2_self_le hs
  have hhi : s < 2 ^ (Nat.log2 s + 1) := Nat.lt_log2_self
  by_cases he : Nat.log2 s ≤ 52
  · have hpow : 2 ^ Nat.log2 s * 2 ^ (52 - Nat.log2 s) = 2 ^ 52 := by
      rw [← Nat.pow_add]
      congr 1
      omega
    refine ⟨s * 2 ^ (52 - Nat.log2 s), ?_, ?_, by simp [roundNatBits, he], fun _ => rfl, by omega⟩
    · rw [← hpow]
      exact Nat.mul_le_mul_right _ hlo
    · calc s * 2 ^ (52 - Nat.log2 s) < 2 ^ (Nat.log2 s + 1) * 2 ^ (52 - Nat.log2 s) :=
            Nat.mul_lt_mul_of_pos_right hhi (by positivity)
        _ = 2 ^ 53 := by
            rw [← Nat.pow_add]
            congr 1
            omega
  · obtain ⟨sig, hsig⟩ := hdvd (by omega)
    have hpow : 2 ^ (Nat.log2 s - 52) * 2 ^ 52 = 2 ^ Nat.log2 s := by
      rw [← Nat.pow_add]
      congr 1
      omega
    have hmod : s % 2 ^ (Nat.log2 s - 52) = 0 := Nat.mod_eq_zero_of_dvd ⟨sig, hsig⟩
    have hdiv : s / 2 ^ (Nat.log2 s - 52) = sig :=
      Nat.div_eq_of_eq_mul_right (by positivity) hsig
    have hunit : 0 < 2 ^ (Nat.log2 s - 52) := by positivity
    refine ⟨sig, ?_, ?_, ?_, by omega, fun _ => by rw [Nat.mul_comm]; exact hsig⟩
    · apply Nat.le_of_mul_le_mul_left _ hunit
      rw [hpow, ← hsig]
      exact hlo
    · apply Nat.lt_of_mul_lt_mul_left (a := 2 ^ (Nat.log2 s - 52))
      rw [← hsig]
      calc s < 2 ^ (Nat.log2 s + 1) := hhi
        _ = 2 ^ (Nat.log2 s - 52) * 2 ^ 53 := by
            rw [← Nat.pow_add]
            congr 1
            omega
    · have hno : ¬ (2 ^ (Nat.log2 s - 52) < 2 * 0 ∨
          2 * 0 = 2 ^ (Nat.log2 s - 52) ∧ sig % 2 = 1) := by omega
      simp only [roundNatBits, he, if_false, hmod, hdiv, hno]

/-- An integer that some float holds is held by what `float` makes of it. -/
theorem floatOfInt_of_eq {n : ℤ} {x : BitVec 64} (h : cmpIntFloat .eq n x = true) :
    ∃ y, floatOfInt n = .ok y ∧ cmpIntFloat .eq n y = true := by
  by_cases hn : n = 0
  · subst hn
    exact ⟨0, by simp [floatOfInt], cmpIntFloat_eq_iff.mpr ⟨0, 1074, by decide, zero_mul _⟩⟩
  obtain ⟨num, den, hx, hnum⟩ := cmpIntFloat_eq_iff.mp h
  have hs : n.natAbs ≠ 0 := by omega
  have hlo := Nat.log2_self_le hs
  -- the float's significand leaves no bit of the integer below the last one kept
  have hrange : Nat.log2 n.natAbs ≤ 1023 ∧
      (52 < Nat.log2 n.natAbs → 2 ^ (Nat.log2 n.natAbs - 52) ∣ n.natAbs) := by
    have habs : n.natAbs * 2 ^ den = num.natAbs := by
      rw [← hnum, Int.natAbs_mul, Int.natAbs_pow]
      rfl
    rcases floatFraction_bound hx with hsmall | ⟨rfl, sig, t, hsig, hlt, ht⟩
    · have hle : n.natAbs < 2 ^ 53 :=
        lt_of_le_of_lt (Nat.le_mul_of_pos_right _ (by positivity)) (habs ▸ hsmall)
      have hlog : Nat.log2 n.natAbs < 53 := (Nat.log2_lt hs).mpr hle
      generalize Nat.log2 n.natAbs = e at hlog ⊢
      exact ⟨by omega, fun _ => by omega⟩
    · rw [pow_zero, mul_one] at habs
      have hlog : Nat.log2 n.natAbs < t + 53 := by
        rw [Nat.log2_lt hs, habs, hsig, Nat.pow_add, Nat.mul_comm]
        exact Nat.mul_lt_mul_of_pos_left hlt (by positivity)
      generalize Nat.log2 n.natAbs = e at hlog ⊢
      refine ⟨by omega, fun _ => ?_⟩
      rw [habs, hsig]
      exact Dvd.dvd.mul_left (pow_dvd_pow 2 (by omega)) sig
  obtain ⟨sig, hsigLo, hsigHi, hbits, hfew, hmany⟩ := roundNatBits_exact hs hrange.2
  have hfits : ¬ 2047 * 2 ^ 52 ≤ roundNatBits n.natAbs := by omega
  obtain ⟨sign, hsign, htop, hvalue⟩ : ∃ sign : ℕ, sign ≤ 1 ∧
      (if n < 0 then 2 ^ 63 else 0) = sign * 2 ^ 63 ∧
      n = if sign = 1 then -(n.natAbs : ℤ) else n.natAbs := by
    by_cases hneg : n < 0
    · exact ⟨1, le_rfl, by simp [hneg], by rw [if_pos rfl]; omega⟩
    · exact ⟨0, by omega, by simp [hneg], by rw [if_neg (by omega)]; omega⟩
  refine ⟨_, by simp only [floatOfInt, hn, hfits, if_false]; rfl, ?_⟩
  rw [htop, hbits, cmpIntFloat_eq_iff, floatFraction_normal hsign hsigLo hsigHi hrange.1]
  generalize n.natAbs = s at hvalue hfew hmany
  by_cases he : Nat.log2 s ≤ 52
  · refine ⟨_, _, by rw [if_pos he], ?_⟩
    rw [hfew he, hvalue]
    split <;> push_cast <;> ring
  · refine ⟨_, _, by rw [if_neg he], ?_⟩
    rw [pow_zero, mul_one, hvalue]
    conv_lhs => rw [hmany (by omega)]
    split <;> push_cast <;> ring

/-! ## The host -/

/-- The host's floats, with `fcvt_to_sint` computed from the bits. -/
def pyHostFloats : FloatOps (BitVec 64) :=
  { hostFloatBits with
    toInt := fun x =>
      match truncFloat x with
      | .ok n => if -2 ^ 63 ≤ n ∧ n < 2 ^ 63 then .ok (BitVec.ofInt 64 n) else .error .badToInt
      | .error _ => .error .badToInt }

/-- Arguments at which a function of `math` raises a `ValueError`. -/
def mathDomain (fn : MathFn) (x : BitVec 64) : Bool :=
  match fn with
  | .sqrt => !hostFloatBits.cmp .lt x hostFloatBits.zero
  | .log => !hostFloatBits.cmp .le x hostFloatBits.zero
  | .sin | .cos | .tan => (floatFraction x).isSome || isNanBits x
  | .abs | .exp | .floor | .ceil => true

def hostPython : PyFloats (BitVec 64) where
  fl := pyHostFloats
  ofInt n :=
    let x := if -2 ^ 63 ≤ n ∧ n < 2 ^ 63 then pyHostFloats.ofInt (BitVec.ofInt 64 n)
      else hostFloats.toBits (Float.ofInt n)
    if (floatFraction x).isSome ∨ -2 ^ 63 ≤ n ∧ n < 2 ^ 63 then .ok x else .error .overflowError
  toInt := truncFloat
  -- correctly rounded for operands that are floats themselves
  divInts a b := .ok (hostFloats.toBits (Float.ofInt a / Float.ofInt b))
  floorDiv x y := hostFloatBits.libm .floor (hostFloatBits.bin .fdiv x y)
  mod x y := hostFloatBits.bin .fsub x
    (hostFloatBits.bin .fmul y (hostFloatBits.libm .floor (hostFloatBits.bin .fdiv x y)))
  pow x y :=
    let z := hostFloatBits.pow x y
    if isNanBits z && !isNanBits x && !isNanBits y then .ok none
    else if (floatFraction x).isSome && (floatFraction y).isSome && (floatFraction z).isNone then
      .error .overflowError
    else .ok (some z)
  cmpInt := cmpIntFloat
  floor x := truncFloat (hostFloatBits.libm .floor x)
  ceil x := truncFloat (hostFloatBits.libm .ceil x)
  math fn n :=
    let x := match n with
      | .int n => pyHostFloats.ofInt (BitVec.ofInt 64 n)
      | .float x => x
    let y := pyHostFloats.libm fn.libm x
    if !mathDomain fn x then .error .valueError
    else if (floatFraction x).isSome && (floatFraction y).isNone then .error .overflowError
    else .ok y

theorem hostPython_lawful : hostPython.Lawful where
  trunc h := truncFloat_of_eq h
  ofInt {n x} h hn := by
    have hfits : -2 ^ 63 ≤ n ∧ n < 2 ^ 63 := hn
    simp only [hostPython, hfits, and_self, or_true, if_true, Except.ok.injEq] at h
    exact h
  toInt {x n} h hn := by
    have hfits : -2 ^ 63 ≤ n ∧ n < 2 ^ 63 := hn
    have htrunc : truncFloat x = .ok n := h
    simp only [hostPython, pyHostFloats, htrunc, hfits, and_self, if_true]
  pow {x y z} h := by
    simp only [hostPython] at h
    split at h
    · cases h
    · split at h
      · cases h
      · cases h
        rfl
  mathFloat {fn x y} h := by
    simp only [hostPython] at h
    split at h
    · cases h
    · split at h
      · cases h
      · cases h
        rfl
  mathInt {fn n y} h _ := by
    simp only [hostPython] at h
    split at h
    · cases h
    · split at h
      · cases h
      · cases h
        rfl

def FloatCC.onInts : FloatCC → ℤ → ℤ → Bool
  | .lt, a, b => decide (a < b)
  | .le, a, b => decide (a ≤ b)
  | .gt, a, b => decide (b < a)
  | .ge, a, b => decide (b ≤ a)
  | .eq, a, b => decide (a = b)
  | .ne, a, b => decide (a ≠ b)

/-- The bits of floats other than NaN, as sign and magnitude, are ordered as the floats. -/
def floatKey (b : BitVec 64) : ℤ := if b.msb then -((b.toNat % 2 ^ 63 : ℕ) : ℤ) else b.toNat

def cmpFloatBits (cc : FloatCC) (x y : BitVec 64) : Bool :=
  if isNanBits x || isNanBits y then cc = .ne else cc.onInts (floatKey x) (floatKey y)

/-- The host with comparisons that can be computed. -/
def bitPython : PyFloats (BitVec 64) :=
  { hostPython with fl := { pyHostFloats with zero := 0, cmp := cmpFloatBits } }

theorem bitPython_lawful : bitPython.Lawful where
  trunc := hostPython_lawful.trunc
  ofInt := hostPython_lawful.ofInt
  toInt := hostPython_lawful.toInt
  pow := hostPython_lawful.pow
  mathFloat := hostPython_lawful.mathFloat
  mathInt := hostPython_lawful.mathInt

end Gilmap
