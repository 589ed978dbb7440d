import Gilmap.Python.HostFloats
import Gilmap.Router.Decide

/-! # The fast path of numba

`numba_native` calls the function on each element and stores the results into a numpy array
of the input's dtype. Every store converts. The array that comes back holds the results
exactly when the dtype has a value for each of them.
-/
namespace Gilmap
open Library

/-! ## The loop -/

/-- numpy's `out[i] = value`, by the index and the dtype of `out`. Python's number does not
settle it: numpy raises for a Python float and casts an `np.float64` that are the same. -/
abbrev NpStore := ℕ → Dtype → PyVal (BitVec 64) → Except PyExc (Val (BitVec 64))

/-- What numpy documents of a store. A float that is out of range after truncation, or a NaN,
has no documented result in an `int64` array, and neither has an integer that does not fit. -/
structure NpStore.Documented (store : NpStore) : Prop where
  /-- the array keeps its dtype -/
  ty : ∀ {i d v s}, store i d v = .ok s → s.ty = clType d
  intWord : ∀ {n} i, Fits 64 n → store i .i64 (.int n) = .ok (.i64 (BitVec.ofInt 64 n))
  boolWord : ∀ b i, store i .i64 (.bool b) = .ok (.i64 (BitVec.ofInt 64 b.toInt))
  /-- truncation toward zero -/
  floatWord : ∀ {x n} i, truncFloat x = .ok n → Fits 64 n →
    store i .i64 (.float x) = .ok (.i64 (BitVec.ofInt 64 n))
  /-- rounding to nearest, ties to even -/
  intFloat : ∀ {n x} i, floatOfInt n = .ok x → store i .f64 (.int n) = .ok (.f64 x)
  boolFloat : ∀ {b x} i, floatOfInt b.toInt = .ok x → store i .f64 (.bool b) = .ok (.f64 x)
  float : ∀ x i, store i .f64 (.float x) = .ok (.f64 x)

/-- A compiled function of one element. -/
abbrev NumbaFunc := Val (BitVec 64) → Except PyExc (PyVal (BitVec 64))

/-- The iterations from `i` on, over what is left of `np_in`. -/
def numbaLoop (store : NpStore) (dtype : Dtype) (f : NumbaFunc) :
    List (Val (BitVec 64)) → ℕ → List (Val (BitVec 64)) → Except PyExc (List (Val (BitVec 64)))
  | [], _, out => .ok out
  | x :: npIn, i, out => do
    let stored ← store i dtype (← f x)
    numbaLoop store dtype f npIn (i + 1) (out.set i stored)

/-- `fast` of `_detect_numba`. What `empty_like` leaves in the new array is `memory`. -/
def numbaFast (store : NpStore) (f : NumbaFunc) (memory : ℕ → Val (BitVec 64))
    (arr : PaArray (BitVec 64)) : Except PyExc (PaArray (BitVec 64)) :=
  match arr.type with
  | .lane dtype => do
    let out ← numbaLoop store dtype f arr.values 0 ((List.range arr.values.length).map memory)
    .ok ⟨.lane dtype, out⟩
  -- `_to_arrow` has made an array of a lane
  | .float32 | .other _ => .error .unmodelled

/-- `decision.fast_path(func, arr)` of a decision for `numba_native`. -/
def BackendDecision.callNumba (decision : BackendDecision (BitVec 64)) (store : NpStore)
    (f : NumbaFunc) (memory : ℕ → Val (BitVec 64)) (arr : PaArray (BitVec 64)) :
    Except PyExc (PaArray (BitVec 64)) :=
  match decision.fastPath with
  | some .numba => numbaFast store f memory arr
  | some (.arrow _ _) | some (.cfunc _ _) | some (.jit _ _ _ _) | none => .error .unmodelled

/-! ## What a store keeps -/

/-- The element is the number that the function has returned. A NaN counts as itself. -/
def Val.IsValue : Val (BitVec 64) → PyVal (BitVec 64) → Prop
  | .i64 b, .int n => b.toInt = n
  | .i64 b, .bool c => b.toInt = c.toInt
  | .i64 b, .float x => cmpIntFloat .eq b.toInt x = true
  | .f64 x, .int n => cmpIntFloat .eq n x = true
  | .f64 x, .bool c => cmpIntFloat .eq c.toInt x = true
  | .f64 x, .float y => x = y
  | _, _ => False

/-- The dtype has the number: an `int64` array the integers that fit and the floats that are
one of these, a `float64` array the floats and the integers that are one of these. -/
def PyVal.InDtype : PyVal (BitVec 64) → Dtype → Prop
  | .int n, .i64 => Fits 64 n
  | .float x, .i64 => ∃ n, Fits 64 n ∧ cmpIntFloat .eq n x = true
  | .int n, .f64 => ∃ x, cmpIntFloat .eq n x = true
  | .bool _, _ | .float _, .f64 => True
  | .complex, _ => False

/-- The elements of `out` are the function's results, in order. -/
def HoldsResults (f : NumbaFunc) (values out : List (Val (BitVec 64))) : Prop :=
  ∀ (i : ℕ) (x : Val (BitVec 64)), values[i]? = some x →
    ∃ (v : PyVal (BitVec 64)) (s : Val (BitVec 64)), f x = .ok v ∧ out[i]? = some s ∧ s.IsValue v

theorem bool_is_float (b : Bool) : ∃ x, cmpIntFloat .eq b.toInt x = true := by
  cases b
  · exact ⟨0, cmpIntFloat_eq_iff.mpr ⟨0, 1074, by decide, zero_mul _⟩⟩
  · exact ⟨0x3FF0000000000000, cmpIntFloat_eq_iff.mpr ⟨2 ^ 52, 52, by decide, by norm_num⟩⟩

/-- A number in an array of its dtype is a value of the dtype. -/
theorem Val.IsValue.inDtype {d : Dtype} {v : PyVal (BitVec 64)} {s : Val (BitVec 64)}
    (hsame : s.IsValue v) (hty : s.ty = clType d) : v.InDtype d := by
  cases s with
  | i64 b =>
    cases d with
    | f64 => cases hty
    | i64 =>
      have hfits : Fits 64 b.toInt := fits_toInt b
      cases v with
      | int n => exact hsame ▸ hfits
      | bool c => trivial
      | float x => exact ⟨_, hfits, hsame⟩
      | complex => exact hsame
  | f64 x =>
    cases d with
    | i64 => cases hty
    | f64 =>
      cases v with
      | int n => exact ⟨x, hsame⟩
      | bool c => trivial
      | float y => trivial
      | complex => exact hsame
  | i8 b => cases v <;> exact hsame.elim
  | i64x2 a b => cases v <;> exact hsame.elim
  | f64x2 x y => cases v <;> exact hsame.elim

section Stores
variable {store : NpStore}

/-- A store keeps what the dtype has. -/
theorem NpStore.Documented.isValue (hstore : store.Documented) {i : ℕ} {d : Dtype}
    {v : PyVal (BitVec 64)} {s : Val (BitVec 64)} (h : store i d v = .ok s)
    (hv : v.InDtype d) : s.IsValue v := by
  cases d with
  | i64 =>
    cases v with
    | int n =>
      rw [hstore.intWord i hv] at h
      cases h
      exact toInt_ofInt_of_fits (by norm_num) hv
    | bool c =>
      rw [hstore.boolWord] at h
      cases h
      change (BitVec.ofInt 64 c.toInt).toInt = c.toInt
      cases c <;> rfl
    | float x =>
      obtain ⟨n, hfits, hsame⟩ := hv
      rw [hstore.floatWord i (truncFloat_of_eq hsame) hfits] at h
      cases h
      simpa only [Val.IsValue, toInt_ofInt_of_fits (by norm_num) hfits] using hsame
    | complex => exact hv.elim
  | f64 =>
    cases v with
    | int n =>
      obtain ⟨x, hx⟩ := hv
      obtain ⟨y, hy, hsame⟩ := floatOfInt_of_eq hx
      rw [hstore.intFloat i hy] at h
      cases h
      exact hsame
    | bool c =>
      obtain ⟨x, hx⟩ := bool_is_float c
      obtain ⟨y, hy, hsame⟩ := floatOfInt_of_eq hx
      rw [hstore.boolFloat i hy] at h
      cases h
      exact hsame
    | float x =>
      rw [hstore.float] at h
      cases h
      rfl
    | complex => exact hv.elim

/-- The element that a store leaves is the number stored exactly when the dtype has it. -/
theorem NpStore.Documented.isValue_iff (hstore : store.Documented) {i : ℕ} {d : Dtype}
    {v : PyVal (BitVec 64)} {s : Val (BitVec 64)} (h : store i d v = .ok s) :
    s.IsValue v ↔ v.InDtype d :=
  ⟨fun hsame => hsame.inDtype (hstore.ty h), hstore.isValue h⟩

/-! ## The array that comes back -/

/-- The loop keeps what it has stored and goes through the rest in order. -/
theorem numbaLoop_spec {d : Dtype} {f : NumbaFunc} {npIn : List (Val (BitVec 64))} {i : ℕ}
    {out result : List (Val (BitVec 64))} (hlen : out.length = i + npIn.length)
    (h : numbaLoop store d f npIn i out = .ok result) :
    result.length = out.length ∧ (∀ j < i, result[j]? = out[j]?) ∧
      ∀ (j : ℕ) (x : Val (BitVec 64)), npIn[j]? = some x →
        ∃ v s, f x = .ok v ∧ store (i + j) d v = .ok s ∧ result[i + j]? = some s := by
  induction npIn generalizing i out with
  | nil =>
    cases h
    exact ⟨rfl, fun _ _ => rfl, fun j x hx => by simp at hx⟩
  | cons x npIn ih =>
    obtain ⟨v, hv, h⟩ := Except.bind_eq_ok.mp h
    obtain ⟨s, hs, h⟩ := Except.bind_eq_ok.mp h
    simp only [List.length_cons] at hlen
    have hset : (out.set i s).length = i + 1 + npIn.length := by
      rw [List.length_set, hlen]
      omega
    obtain ⟨hresult, hkeep, hrest⟩ := ih hset h
    refine ⟨by rw [hresult, List.length_set], fun j hj => ?_, fun j y hy => ?_⟩
    · rw [hkeep j (by omega), List.getElem?_set_ne (by omega)]
    · cases j with
      | zero =>
        cases hy
        refine ⟨v, s, hv, hs, ?_⟩
        rw [Nat.add_zero, hkeep i (by omega), List.getElem?_set_self (by omega)]
      | succ j =>
        obtain ⟨w, t, hw, ht, hj⟩ := hrest j y hy
        rw [Nat.add_assoc, Nat.add_comm 1 j] at ht hj
        exact ⟨w, t, hw, ht, hj⟩

/-- Every decision for `numba_native` runs the loop. -/
theorem callNumba_detected {func : PyFunc (BitVec 64)} {decision : BackendDecision (BitVec 64)}
    (h : detectNumba func = some decision) (f : NumbaFunc) (memory : ℕ → Val (BitVec 64))
    (arr : PaArray (BitVec 64)) :
    decision.callNumba store f memory arr = numbaFast store f memory arr := by
  simp only [detectNumba] at h
  split at h
  · cases h
    rfl
  · cases h

end Stores

/-- An array that the fast path returns has one element for each of the input. The elements
are the results of the function exactly when the input's dtype has all of these. -/
theorem numba_values_iff {store : NpStore} (hstore : store.Documented)
    {func : PyFunc (BitVec 64)} {decision : BackendDecision (BitVec 64)}
    (hdetect : detectNumba func = some decision) (d : Dtype) (f : NumbaFunc)
    (memory : ℕ → Val (BitVec 64)) (values : List (Val (BitVec 64))) (out : PaArray (BitVec 64))
    (hrun : decision.callNumba store f memory ⟨.lane d, values⟩ = .ok out) :
    out.values.length = values.length ∧
      (HoldsResults f values out.values ↔
        ∀ x ∈ values, ∀ v, f x = .ok v → v.InDtype d) := by
  rw [callNumba_detected hdetect] at hrun
  obtain ⟨result, hloop, hout⟩ := Except.bind_eq_ok.mp hrun
  cases hout
  obtain ⟨hlen, -, hall⟩ := numbaLoop_spec (by simp) hloop
  refine ⟨by simpa using hlen, fun hvalues x hx v hv => ?_, fun hheld i x hx => ?_⟩
  · obtain ⟨i, hi⟩ := List.mem_iff_getElem?.mp hx
    obtain ⟨v₁, s₁, hv₁, hs, hs₁⟩ := hall i x hi
    obtain ⟨v₂, s₂, hv₂, hs₂, hsame⟩ := hvalues i x hi
    rw [Nat.zero_add] at hs₁
    rw [hv] at hv₁ hv₂
    cases hv₁
    cases hv₂
    rw [hs₁] at hs₂
    cases hs₂
    exact (hstore.isValue_iff hs).mp hsame
  · obtain ⟨v, s, hv, hs, hat⟩ := hall i x hx
    rw [Nat.zero_add] at hat
    exact ⟨v, s, hv, hat, (hstore.isValue_iff hs).mpr (hheld x (List.mem_of_getElem? hx) v hv)⟩

/-- The stores of `np.float64`s and of Python's integers on a 64-bit host: a float that an
`int64` array does not have becomes the least word, as C's cast leaves it. -/
def hostNpStore : NpStore
  | _, .i64, .int n =>
    if Fits 64 n then .ok (.i64 (BitVec.ofInt 64 n)) else .error .overflowError
  | _, .i64, .bool b => .ok (.i64 (BitVec.ofInt 64 b.toInt))
  | _, .i64, .float x =>
    match truncFloat x with
    | .ok n => .ok (.i64 (if Fits 64 n then BitVec.ofInt 64 n else BitVec.intMin 64))
    | .error _ => .ok (.i64 (BitVec.intMin 64))
  | _, .f64, .int n => (floatOfInt n).map .f64
  | _, .f64, .bool b => (floatOfInt b.toInt).map .f64
  | _, .f64, .float x => .ok (.f64 x)
  | _, _, .complex => .error .typeError

theorem floatOfInt_map_ty {n : ℤ} {s : Val (BitVec 64)} (h : (floatOfInt n).map .f64 = .ok s) :
    s.ty = .f64 := by
  cases hx : floatOfInt n with
  | error e =>
    rw [hx] at h
    cases h
  | ok x =>
    rw [hx] at h
    cases h
    rfl

theorem hostNpStore_documented : hostNpStore.Documented where
  ty {i d v s} h := by
    cases d with
    | i64 =>
      cases v with
      | int n =>
        simp only [hostNpStore] at h
        split at h <;> cases h
        rfl
      | bool b =>
        cases h
        rfl
      | float x =>
        simp only [hostNpStore] at h
        split at h <;> cases h <;> rfl
      | complex => cases h
    | f64 =>
      cases v with
      | int n => exact floatOfInt_map_ty h
      | bool b => exact floatOfInt_map_ty h
      | float x =>
        cases h
        rfl
      | complex => cases h
  intWord _ hn := by simp only [hostNpStore, hn, if_true]
  boolWord _ _ := rfl
  floatWord _ hx hn := by simp only [hostNpStore, hx, hn, if_true]
  intFloat _ hx := by simp only [hostNpStore, hx, Except.map]
  boolFloat _ hx := by simp only [hostNpStore, hx, Except.map]
  float _ _ := rfl

/-- A `cfunc` with the signature `float64(int64)`. -/
def mixedCfunc : PyFunc (BitVec 64) where
  id := 0
  weakref := true
  node := none
  address := some 4096
  sig := some (["int64"], "float64")
  nopythonSignatures := false
  isNjit := false
  classModule := "numba.core.ccallback"

/-- `x * 0.5`, by the bits: the exponent goes down by one. -/
def halve : NumbaFunc
  | .i64 b => (floatOfInt b.toInt).map fun y => .float (if y = 0 then 0 else y - 0x10000000000000)
  | _ => .error .typeError

/-- The halves of even numbers come back as they are. -/
theorem numba_values_halve :
    detectNumbaCfunc mixedCfunc = none ∧
      ∃ decision out, detectNumba mixedCfunc = some decision ∧
        decision.callNumba hostNpStore halve (fun _ => .i64 7) ⟨.lane .i64, [.i64 2, .i64 6]⟩ =
          .ok out ∧
        out.values.length = 2 ∧ HoldsResults halve [.i64 2, .i64 6] out.values := by
  have hdetect : detectNumba mixedCfunc = some ⟨.numbaNative,
      "detected numba_njit via attribute introspection", some .numba⟩ := rfl
  have hrun : BackendDecision.callNumba ⟨.numbaNative,
      "detected numba_njit via attribute introspection", some .numba⟩ hostNpStore halve
      (fun _ => .i64 7) ⟨.lane .i64, [.i64 2, .i64 6]⟩ =
        .ok ⟨.lane .i64, [.i64 1, .i64 3]⟩ := by decide
  have hvalues := numba_values_iff hostNpStore_documented hdetect .i64 halve _ _ _ hrun
  refine ⟨by decide, _, _, hdetect, hrun, hvalues.1, hvalues.2.mpr fun x hx v hv => ?_⟩
  -- the results are 1.0 and 3.0
  rcases List.mem_pair.mp hx with rfl | rfl
  · have hhalf : halve (.i64 2) = .ok (.float 0x3FF0000000000000) := by decide
    rw [hhalf] at hv
    cases hv
    exact ⟨1, by decide, by decide⟩
  · have hhalf : halve (.i64 6) = .ok (.float 0x4008000000000000) := by decide
    rw [hhalf] at hv
    cases hv
    exact ⟨3, by decide, by decide⟩

/-- Half of one is stored as zero. -/
theorem numba_halve_one :
    detectNumbaCfunc mixedCfunc = none ∧
      ∃ decision, detectNumba mixedCfunc = some decision ∧
        decision.callNumba hostNpStore halve (fun _ => .i64 7) ⟨.lane .i64, [.i64 1]⟩ =
          .ok ⟨.lane .i64, [.i64 0]⟩ ∧
        ¬ HoldsResults halve [.i64 1] [.i64 0] := by
  refine ⟨by decide, _, rfl, by decide, fun hvalues => ?_⟩
  obtain ⟨v, s, hv, hs, hsame⟩ := hvalues 0 (.i64 1) rfl
  have hhalf : halve (.i64 1) = .ok (.float 0x3FE0000000000000) := by decide
  rw [hhalf] at hv
  cases hv
  cases hs
  exact absurd hsame (by simp only [Val.IsValue]; decide)

end Gilmap
