import Gilmap.Router.ArrowBody

/-! # Closures of integer bodies

The kernels know the types `int64` and `bool` only. A closure that returns has computed the
words of its body; it returns if the body is typed, its constants are words and no divisor
is zero, in all arms.
-/
namespace Gilmap
open Library
variable {F : Type}

/-! ## The kernels -/

def PyConst.OfTy : PyConst F → PaTy → Prop
  | .int n, .int64 => Fits 64 n
  | .bool _, .bool => True
  | _, _ => False

/-- The number of an element, as `==` compares. -/
def PyConst.number : PyConst F → Option ℤ
  | .int n => some n
  | .bool b => some b.toInt
  | .float _ | .str _ | .other _ => none

/-- Well-formed data of a type; the length is that of an array. -/
inductive Datum.HasShape : Datum F → PaTy → Option ℕ → Prop
  | array {t : PaTy} {vals : List (PyConst F)} : (∀ v ∈ vals, v.OfTy t) →
      HasShape (.array t vals) t (some vals.length)
  | scalar {t : PaTy} {v : PyConst F} : v.OfTy t → HasShape (.scalar v) t none

/-- The value in a row; a scalar has it in all of them. -/
def Datum.row : Datum F → ℕ → Option (PyConst F)
  | .array _ vals, i => vals[i]?
  | .scalar v, _ => some v

/-- The rows on which a kernel runs: two scalars have one. -/
def rowsOf (len : Option ℕ) : ℕ := len.getD 1

/-- The length of an argument, beside arrays of length `n`. -/
def IsLen (n : ℕ) (len : Option ℕ) : Prop := len = none ∨ len = some n

/-- A number that a kernel cannot take. -/
def tooBig (F : Type) (n : ℤ) : Datum F := .scalar (.int n)

/-- The kernels on `int64` and `bool`, and what has none. The quotient that does not fit is
`overflow`: the library says that it wraps around, and gives zero. -/
structure PaCompute.Documented (pc : PaCompute F) (overflow : ℤ) : Prop where
  /-- Overflow wraps around, but for a quotient; an integer division needs divisors. -/
  binOp : ∀ {op n a b l r}, (op = .div || op.onInts.isSome) = true → IsLen n a → IsLen n b →
    Datum.HasShape l .int64 a → Datum.HasShape r .int64 b →
    (op = .div → ∀ i < rowsOf (a.or b), r.row i ≠ some (.int 0)) →
    ∃ d, pc.binOp op l r = .ok d ∧ d.HasShape .int64 (a.or b) ∧ ∀ i x y z, l.row i = some (.int x) →
      r.row i = some (.int y) → d.row i = some z → z = .int (wordBinOp overflow op x y)
  /-- a zero divisor anywhere in the array -/
  divideZero : ∀ {n a b l r i}, IsLen n a → IsLen n b → Datum.HasShape l .int64 a →
    Datum.HasShape r .int64 b → i < rowsOf (a.or b) → r.row i = some (.int 0) →
    ∃ e, pc.binOp .div l r = .error e
  boolOperand : ∀ {op n a b s t l r}, arrowBinOp op = true → IsLen n a → IsLen n b →
    Datum.HasShape l s a → Datum.HasShape r t b → s = .bool ∨ t = .bool →
    ∃ e, pc.binOp op l r = .error e
  unary : ∀ {op a e}, op = .uSub ∨ op = .invert → Datum.HasShape e .int64 a →
    ∃ d, pc.unaryOp op e = .ok d ∧ d.HasShape .int64 a ∧ ∀ i x z, e.row i = some (.int x) →
      d.row i = some z → z = .int (wordUnary op x)
  boolUnary : ∀ {op a e}, op = .uSub ∨ op = .invert → Datum.HasShape e .bool a →
    ∃ err, pc.unaryOp op e = .error err
  compare : ∀ {op t n a b l r}, arrowCmpOp op = true → IsLen n a → IsLen n b →
    Datum.HasShape l t a → Datum.HasShape r t b → t = .int64 ∨ t = .bool →
    ∃ d, pc.compare op l r = .ok d ∧ d.HasShape .bool (a.or b) ∧
      ∀ i (v w : PyConst F) p q z, l.row i = some v → v.number = some p → r.row i = some w →
        w.number = some q → d.row i = some z → z = .bool (op.onRats p q)
  compareMixed : ∀ {op s t n a b l r}, arrowCmpOp op = true → IsLen n a → IsLen n b →
    Datum.HasShape l s a → Datum.HasShape r t b → s ≠ t → ∃ e, pc.compare op l r = .error e
  /-- both arms are there in all rows -/
  ifElse : ∀ {t n a b c cond yes no}, IsLen n a → IsLen n b → IsLen n c →
    Datum.HasShape cond .bool a → Datum.HasShape yes t b → Datum.HasShape no t c →
    t = .int64 ∨ t = .bool →
    ∃ d, pc.ifElse cond yes no = .ok d ∧ d.HasShape t (a.or (b.or c)) ∧ ∀ i q v,
      cond.row i = some (.bool q) → d.row i = some v → (if q then yes.row i else no.row i) = some v
  ifElseTest : ∀ {s t n a b c cond yes no}, IsLen n a → IsLen n b → IsLen n c →
    Datum.HasShape cond .int64 a → Datum.HasShape yes s b → Datum.HasShape no t c →
    ∃ e, pc.ifElse cond yes no = .error e
  ifElseArms : ∀ {s t n a b c cond yes no}, IsLen n a → IsLen n b → IsLen n c →
    Datum.HasShape cond .bool a → Datum.HasShape yes s b → Datum.HasShape no t c → s ≠ t →
    ∃ e, pc.ifElse cond yes no = .error e
  bigOperand : ∀ {op k l r}, ¬ Fits 64 k → l = tooBig F k ∨ r = tooBig F k →
    ∃ e, pc.binOp op l r = .error e
  bigUnary : ∀ {op k}, ¬ Fits 64 k → ∃ e, pc.unaryOp op (tooBig F k) = .error e
  bigCompare : ∀ {op k l r}, ¬ Fits 64 k → l = tooBig F k ∨ r = tooBig F k →
    ∃ e, pc.compare op l r = .error e
  bigIfElse : ∀ {k cond yes no}, ¬ Fits 64 k →
    cond = tooBig F k ∨ yes = tooBig F k ∨ no = tooBig F k → ∃ e, pc.ifElse cond yes no = .error e
  /-- equal values, of any type -/
  array : ∀ {v : PyConst F} (n : ℕ), n = 0 ∨ (∃ t, v.OfTy t) →
    ∃ t, pc.array (List.replicate n v) = .ok (.array t (List.replicate n v))

section Shapes
variable {d : Datum F} {t : PaTy} {len : Option ℕ} {v : PyConst F} {i n : ℕ}

theorem PyConst.OfTy.exists_number (h : v.OfTy t) : ∃ k, v.number = some k ∧ Fits 64 k := by
  cases v with
  | int k =>
    cases t with
    | int64 => exact ⟨k, rfl, h⟩
    | bool | other _ => cases h
  | bool b => exact ⟨b.toInt, rfl, by cases b <;> decide⟩
  | float _ | str _ | other _ => cases t <;> cases h

theorem Datum.HasShape.ofTy (h : d.HasShape t len) (hv : d.row i = some v) : v.OfTy t := by
  cases h with
  | array hvals => exact hvals v (List.mem_of_getElem? hv)
  | scalar hv' =>
    cases hv
    exact hv'

theorem Datum.HasShape.exists_row (h : d.HasShape t len) (hi : ∀ n, len = some n → i < n) :
    ∃ v, d.row i = some v := by
  cases h with
  | array => exact ⟨_, List.getElem?_eq_getElem (hi _ rfl)⟩
  | scalar => exact ⟨_, rfl⟩

theorem Datum.HasShape.int_of_row (h : d.HasShape .int64 len) (hv : d.row i = some v) :
    ∃ n, v = .int n ∧ Fits 64 n := by
  have hty := h.ofTy hv
  cases v with
  | int n => exact ⟨n, rfl, hty⟩
  | bool _ | float _ | str _ | other _ => cases hty

theorem Datum.HasShape.bool_of_row (h : d.HasShape .bool len) (hv : d.row i = some v) :
    ∃ b, v = .bool b := by
  have hty := h.ofTy hv
  cases v with
  | bool b => exact ⟨b, rfl⟩
  | int _ | float _ | str _ | other _ => cases hty

end Shapes

/-! ## Closures of integer bodies -/

/-- What the closure of a body returns, before it is wrapped. -/
def PaCompute.datum (pc : PaCompute F) (param : String) (arr : List ℤ) (e : PyExpr F) :
    Except PaError (Datum F) :=
  match pc.lower param e with
  | some compiled => compiled (.array .int64 (arr.map .int))
  | none => .error (.other "no kernel")

section Bodies
attribute [local simp] PyExpr.paTy PyExpr.mentions PyExpr.quotients PyExpr.intConstants
variable {pc : PaCompute F} {param : String} {arr : List ℤ} {e left right test body orelse : PyExpr F}
  {d : Datum F} {t : PaTy} {x o : ℤ}

theorem arrowBinOp_of_body {op : PyBinOp} (h : (op = .div || op.onInts.isSome) = true) :
    arrowBinOp op = true := by
  cases op <;> revert h <;> decide

theorem arrowLowers_of_body {e : PyExpr F} (h : e.isIntBody param = true) :
    arrowLowers param e = true := by
  fun_induction PyExpr.isIntBody param e with
  | case1 => simpa [arrowLowers] using h
  | case2 | case3 => rfl
  | case4 op operand ih =>
    simp only [Bool.and_eq_true] at h
    simp [arrowLowers, h.1, ih h.2]
  | case5 left op right ihl ihr =>
    simp only [Bool.and_eq_true] at h
    simp [arrowLowers, arrowBinOp_of_body h.1.1, ihl h.1.2, ihr h.2]
  | case6 left op right ihl ihr =>
    simp only [Bool.and_eq_true] at h
    simp [arrowLowers, h.1.1, ihl h.1.2, ihr h.2]
  | case7 test body orelse iht ihy ihn =>
    simp only [Bool.and_eq_true] at h
    simp [arrowLowers, iht h.1.1, ihy h.1.2, ihn h.2]
  | case8 => cases h

theorem exists_lower (pc : PaCompute F) (h : e.isIntBody param = true) :
    ∃ compiled, pc.lower param e = some compiled :=
  Option.isSome_iff_exists.mp ((lower_isSome pc param e).trans (arrowLowers_of_body h))

theorem datum_unary {op : PyUnaryOp} (h : (PyExpr.unaryOp op e).isIntBody param = true) :
    pc.datum param arr (.unaryOp op e) = .ok d ↔
      ∃ a, pc.datum param arr e = .ok a ∧ pc.unary op a = .ok d := by
  simp only [PyExpr.isIntBody, Bool.and_eq_true] at h
  obtain ⟨inner, hinner⟩ := exists_lower pc h.2
  simp only [PaCompute.datum, PaCompute.lower, h.1, if_true, hinner, Option.bind_eq_bind,
    Option.bind_some, Except.bind_eq_ok]

theorem datum_binOp {op : PyBinOp} (h : (PyExpr.binOp left op right).isIntBody param = true) :
    pc.datum param arr (.binOp left op right) = .ok d ↔ ∃ l r, pc.datum param arr left = .ok l ∧
      pc.datum param arr right = .ok r ∧ pc.binOp op l r = .ok d := by
  simp only [PyExpr.isIntBody, Bool.and_eq_true] at h
  obtain ⟨l, hl⟩ := exists_lower pc h.1.2
  obtain ⟨r, hr⟩ := exists_lower pc h.2
  simp only [PaCompute.datum, PaCompute.lower, arrowBinOp_of_body h.1.1, if_true, hl, hr,
    Option.bind_eq_bind, Option.bind_some, Except.bind_eq_ok]
  constructor
  · rintro ⟨a, ha, b, hb, hd⟩
    exact ⟨a, b, ha, hb, hd⟩
  · rintro ⟨a, b, ha, hb, hd⟩
    exact ⟨a, ha, b, hb, hd⟩

theorem datum_compare {op : PyCmpOp} (h : (PyExpr.compare left [op] [right]).isIntBody param = true) :
    pc.datum param arr (.compare left [op] [right]) = .ok d ↔ ∃ l r, pc.datum param arr left = .ok l ∧
      pc.datum param arr right = .ok r ∧ pc.compare op l r = .ok d := by
  simp only [PyExpr.isIntBody, Bool.and_eq_true] at h
  obtain ⟨l, hl⟩ := exists_lower pc h.1.2
  obtain ⟨r, hr⟩ := exists_lower pc h.2
  simp only [PaCompute.datum, PaCompute.lower, h.1.1, if_true, hl, hr,
    Option.bind_eq_bind, Option.bind_some, Except.bind_eq_ok]
  constructor
  · rintro ⟨a, ha, b, hb, hd⟩
    exact ⟨a, b, ha, hb, hd⟩
  · rintro ⟨a, b, ha, hb, hd⟩
    exact ⟨a, ha, b, hb, hd⟩

theorem datum_ifExp (h : (PyExpr.ifExp test body orelse).isIntBody param = true) :
    pc.datum param arr (.ifExp test body orelse) = .ok d ↔ ∃ c y n, pc.datum param arr test = .ok c ∧
      pc.datum param arr body = .ok y ∧ pc.datum param arr orelse = .ok n ∧ pc.ifElse c y n = .ok d := by
  simp only [PyExpr.isIntBody, Bool.and_eq_true] at h
  obtain ⟨c, hc⟩ := exists_lower pc h.1.1
  obtain ⟨y, hy⟩ := exists_lower pc h.1.2
  obtain ⟨n, hn⟩ := exists_lower pc h.2
  simp only [PaCompute.datum, PaCompute.lower, hc, hy, hn, Option.bind_eq_bind, Option.bind_some,
    Except.bind_eq_ok]
  constructor
  · rintro ⟨a, ha, b, hb, c, hc, hd⟩
    exact ⟨a, b, c, ha, hb, hc, hd⟩
  · rintro ⟨a, b, c, ha, hb, hc, hd⟩
    exact ⟨a, ha, b, hb, c, hc, hd⟩

/-- The length of what the closure returns. -/
def bodyLen (param : String) (arr : List ℤ) (e : PyExpr F) : Option ℕ :=
  if e.mentions param then some arr.length else none

theorem isLen_bodyLen : IsLen arr.length (bodyLen param arr e) := by
  unfold bodyLen
  split
  · exact .inr rfl
  · exact .inl rfl

theorem or_bodyLen : (bodyLen param arr left).or (bodyLen param arr right) =
    if left.mentions param || right.mentions param then some arr.length else none := by
  unfold bodyLen
  cases left.mentions param <;> cases right.mentions param <;> rfl

theorem bodyLen_binOp (op : PyBinOp) : bodyLen param arr (.binOp left op right) =
    (bodyLen param arr left).or (bodyLen param arr right) := or_bodyLen.symm

theorem bodyLen_compare (op : PyCmpOp) : bodyLen param arr (.compare left [op] [right]) =
    (bodyLen param arr left).or (bodyLen param arr right) := or_bodyLen.symm

theorem bodyLen_ifExp : bodyLen param arr (.ifExp test body orelse) =
    (bodyLen param arr test).or ((bodyLen param arr body).or (bodyLen param arr orelse)) := by
  unfold bodyLen
  cases ht : test.mentions param <;> cases hb : body.mentions param <;>
    cases ho : orelse.mentions param <;> simp [ht, hb, ho]

/-- A row of an array is an element, and one of a body without the parameter is a scalar's. -/
def RowAt (param : String) (arr : List ℤ) (e : PyExpr F) (i : ℕ) (x : ℤ) : Prop :=
  arr[i]? = some x ∨ e.mentions param = false

theorem RowAt.lt {i n : ℕ} (h : RowAt param arr e i x) (hn : bodyLen param arr e = some n) : i < n := by
  unfold bodyLen at hn
  rcases h with h | h
  · split at hn <;> cases hn
    exact (List.getElem?_eq_some_iff.mp h).1
  · simp [h] at hn

theorem RowAt.exists_row {i : ℕ} (h : RowAt param arr e i x) (hd : d.HasShape t (bodyLen param arr e)) :
    ∃ v, d.row i = some v := hd.exists_row fun _ => h.lt

theorem RowAt.binOp {op : PyBinOp} {i : ℕ} (h : RowAt param arr (.binOp left op right) i x) :
    RowAt param arr left i x ∧ RowAt param arr right i x := by
  rcases h with h | h
  · exact ⟨.inl h, .inl h⟩
  · simp only [PyExpr.mentions, Bool.or_eq_false_iff] at h
    exact ⟨.inr h.1, .inr h.2⟩

theorem RowAt.compare {op : PyCmpOp} {i : ℕ} (h : RowAt param arr (.compare left [op] [right]) i x) :
    RowAt param arr left i x ∧ RowAt param arr right i x :=
  have h : RowAt param arr (.binOp left .add right) i x := h
  h.binOp

theorem RowAt.ifExp {i : ℕ} (h : RowAt param arr (.ifExp test body orelse) i x) :
    RowAt param arr test i x ∧ RowAt param arr body i x ∧ RowAt param arr orelse i x := by
  rcases h with h | h
  · exact ⟨.inl h, .inl h, .inl h⟩
  · simp only [PyExpr.mentions, Bool.or_eq_false_iff] at h
    exact ⟨.inr h.1.1, .inr h.1.2, .inr h.2⟩

/-- The closure runs on the elements, and once for a body without the parameter. -/
def RunsOn (param : String) (arr : List ℤ) (e : PyExpr F) (x : ℤ) : Prop :=
  x ∈ arr ∨ e.mentions param = false

theorem RunsOn.exists_row (h : RunsOn param arr e x) :
    ∃ i < rowsOf (bodyLen param arr e), RowAt param arr e i x := by
  by_cases hm : e.mentions param = true
  · obtain ⟨i, hi⟩ := List.mem_iff_getElem?.mp (h.resolve_right (by simp [hm]))
    refine ⟨i, ?_, .inl hi⟩
    rw [bodyLen, if_pos hm]
    exact (List.getElem?_eq_some_iff.mp hi).1
  · refine ⟨0, ?_, .inr (by simpa using hm)⟩
    rw [bodyLen, if_neg hm]
    exact Nat.one_pos

theorem RunsOn.of_row {i : ℕ} (hi : i < rowsOf (bodyLen param arr e)) :
    ∃ x, RunsOn param arr e x ∧ RowAt param arr e i x := by
  by_cases hm : e.mentions param = true
  · rw [bodyLen, if_pos hm] at hi
    have hlt : i < arr.length := hi
    exact ⟨arr[i], .inl (List.getElem_mem hlt), .inl (List.getElem?_eq_getElem hlt)⟩
  · have hm : e.mentions param = false := by simpa using hm
    exact ⟨0, .inr hm, .inr hm⟩

/-- What the closure of a body returns: data of a kernel's type, with the body's words. -/
structure Computes (overflow : ℤ) (param : String) (arr : List ℤ) (e : PyExpr F) (d : Datum F) (t : PaTy) : Prop where
  paTy : e.paTy = some t
  known : t = .int64 ∨ t = .bool
  shape : d.HasShape t (bodyLen param arr e)
  words : ∀ {i x c}, RowAt param arr e i x → d.row i = some c → c.number = some (e.wordAt overflow x)

namespace Computes
variable {l r c y n : Datum F} {s u : PaTy} {op : PyBinOp}

theorem int_of_row (h : Computes o param arr e d .int64) {v : PyConst F} (hx : RowAt param arr e i x)
    (hv : d.row i = some v) : v = .int (e.wordAt o x) := by
  obtain ⟨k, rfl, -⟩ := h.shape.int_of_row hv
  have := h.words hx hv
  rw [PyConst.number, Option.some.injEq] at this
  rw [this]

theorem int_row (h : Computes o param arr e d .int64) (hx : RowAt param arr e i x) :
    d.row i = some (.int (e.wordAt o x)) := by
  obtain ⟨v, hv⟩ := hx.exists_row h.shape
  rw [hv, h.int_of_row hx hv]

theorem bool_row (h : Computes o param arr e d .bool) (hx : RowAt param arr e i x) :
    ∃ b : Bool, d.row i = some (.bool b) ∧ e.wordAt o x = b.toInt := by
  obtain ⟨v, hv⟩ := hx.exists_row h.shape
  obtain ⟨b, rfl⟩ := h.shape.bool_of_row hv
  have := h.words hx hv
  rw [PyConst.number, Option.some.injEq] at this
  exact ⟨b, hv, this.symm⟩

/-! ### Names and constants -/

theorem array {id : String} (harr : ∀ x ∈ arr, Fits 64 x) :
    Computes o id arr (.name id) (.array .int64 (arr.map (PyConst.int (F := F)))) .int64 := by
  have hlen : bodyLen (F := F) id arr (.name id) = some (arr.map (PyConst.int (F := F))).length := by
    simp [bodyLen]
  refine ⟨rfl, .inl rfl, hlen ▸ .array fun v hv => ?_, fun {i x c} hx hc => ?_⟩
  · obtain ⟨x, hx, rfl⟩ := List.mem_map.mp hv
    exact harr x hx
  · have hx : arr[i]? = some x := hx.resolve_right (by simp)
    obtain rfl : c = .int x := by simpa [Datum.row, hx] using hc.symm
    rfl

theorem bool (b : Bool) : Computes (F := F) o param arr (.constant (.bool b)) (.scalar (.bool b)) .bool :=
  ⟨rfl, .inr rfl, .scalar trivial, fun _ hc => by cases hc; rfl⟩

theorem int {k : ℤ} (hk : Fits 64 k) :
    Computes (F := F) o param arr (.constant (.int k)) (.scalar (.int k)) .int64 :=
  ⟨rfl, .inl rfl, .scalar hk, fun _ hc => by cases hc; rfl⟩

/-! ### Unary operators -/

theorem unary {op : PyUnaryOp} (hpc : pc.Documented o) (hop : arrowUnaryOp op = true)
    (h : Computes o param arr e d t) {d' : Datum F} (hd : pc.unary op d = .ok d') :
    ∃ t', Computes o param arr (.unaryOp op e) d' t' := by
  by_cases hplus : op = .uAdd
  · subst hplus
    simp only [PaCompute.unary, if_true, Except.ok.injEq] at hd
    subst hd
    exact ⟨t, by simp [h.paTy], h.known, h.shape, fun hx => h.words hx⟩
  · have hop' : op = .uSub ∨ op = .invert := by
      cases op <;> simp [arrowUnaryOp] at hop hplus ⊢
    simp only [PaCompute.unary, hplus, if_false] at hd
    rcases h.known with rfl | rfl
    · obtain ⟨z, hz, hshape, hrows⟩ := hpc.unary hop' h.shape
      rw [hd] at hz
      cases hz
      refine ⟨.int64, by simp [h.paTy], .inl rfl, hshape, fun hx hc => ?_⟩
      rw [hrows _ _ _ (h.int_row hx) hc]
      rfl
    · obtain ⟨err, herr⟩ := hpc.boolUnary hop' h.shape
      rw [hd] at herr
      cases herr

theorem exists_unary {op : PyUnaryOp} (hpc : pc.Documented o) (hop : arrowUnaryOp op = true)
    (h : Computes o param arr e d t) (hty : (PyExpr.unaryOp op e).paTy.isSome = true) :
    ∃ d', pc.unary op d = .ok d' := by
  by_cases hplus : op = .uAdd
  · exact ⟨d, by simp [PaCompute.unary, hplus]⟩
  · have hop' : op = .uSub ∨ op = .invert := by
      cases op <;> simp [arrowUnaryOp] at hop hplus ⊢
    have h64 : e.paTy = some .int64 := by
      by_contra hne
      simp [hplus, hne] at hty
    obtain rfl : t = .int64 := by simpa [h64] using h.paTy.symm
    obtain ⟨z, hz, -⟩ := hpc.unary hop' h.shape
    exact ⟨z, by simpa [PaCompute.unary, hplus] using hz⟩

/-! ### Binary operators -/

theorem binOp (hpc : pc.Documented o) (hop : (op = .div || op.onInts.isSome) = true)
    (hl : Computes o param arr left l s) (hr : Computes o param arr right r t) (hd : pc.binOp op l r = .ok d) :
    Computes o param arr (.binOp left op right) d .int64 ∧
      (op = .div → ∀ x, RunsOn param arr (.binOp left op right) x → right.wordAt o x ≠ 0) := by
  have hnobool : ¬ (s = .bool ∨ t = .bool) := fun hbool => by
    obtain ⟨err, herr⟩ := hpc.boolOperand (arrowBinOp_of_body hop) isLen_bodyLen isLen_bodyLen
      hl.shape hr.shape hbool
    rw [hd] at herr
    cases herr
  obtain rfl : s = .int64 := hl.known.resolve_right fun h => hnobool (.inl h)
  obtain rfl : t = .int64 := hr.known.resolve_right fun h => hnobool (.inr h)
  have hdivisors : op = .div → ∀ i < rowsOf ((bodyLen param arr left).or (bodyLen param arr right)),
      r.row i ≠ some (.int 0) := by
    rintro rfl i hi hrow
    obtain ⟨err, herr⟩ := hpc.divideZero isLen_bodyLen isLen_bodyLen hl.shape hr.shape hi hrow
    rw [hd] at herr
    cases herr
  obtain ⟨z, hz, hshape, hrows⟩ := hpc.binOp hop isLen_bodyLen isLen_bodyLen hl.shape hr.shape hdivisors
  rw [hd] at hz
  cases hz
  refine ⟨⟨by simp [hl.paTy, hr.paTy], .inl rfl, by rwa [bodyLen_binOp], fun hx hc => ?_⟩, ?_⟩
  · rw [hrows _ _ _ _ (hl.int_row hx.binOp.1) (hr.int_row hx.binOp.2) hc]
    rfl
  · intro hdiv x hx hzero
    obtain ⟨i, hi, hrow⟩ := hx.exists_row
    rw [bodyLen_binOp] at hi
    exact hdivisors hdiv i hi (hzero ▸ hr.int_row hrow.binOp.2)

theorem exists_binOp (hpc : pc.Documented o) (hop : (op = .div || op.onInts.isSome) = true)
    (hl : Computes o param arr left l s) (hr : Computes o param arr right r t)
    (hty : (PyExpr.binOp left op right).paTy.isSome = true)
    (hdiv : op = .div → ∀ x, RunsOn param arr (.binOp left op right) x → right.wordAt o x ≠ 0) :
    ∃ d, pc.binOp op l r = .ok d := by
  have h64 : left.paTy = some .int64 ∧ right.paTy = some .int64 := by
    by_contra hne
    simp [hne] at hty
  obtain rfl : s = .int64 := by simpa [h64.1] using hl.paTy.symm
  obtain rfl : t = .int64 := by simpa [h64.2] using hr.paTy.symm
  obtain ⟨z, hz, -⟩ := hpc.binOp hop isLen_bodyLen isLen_bodyLen hl.shape hr.shape
    fun hop' i hi hrow => by
      rw [← bodyLen_binOp op] at hi
      obtain ⟨x, hx, hrowAt⟩ := RunsOn.of_row hi
      have := hr.int_of_row hrowAt.binOp.2 hrow
      rw [PyConst.int.injEq] at this
      exact hdiv hop' x hx this.symm
  exact ⟨z, hz⟩

/-! ### Comparisons -/

theorem compare {op : PyCmpOp} (hpc : pc.Documented o) (hop : arrowCmpOp op = true)
    (hl : Computes o param arr left l s) (hr : Computes o param arr right r t)
    (hd : pc.compare op l r = .ok d) : Computes o param arr (.compare left [op] [right]) d .bool := by
  obtain rfl : s = t := by
    by_contra hst
    obtain ⟨err, herr⟩ := hpc.compareMixed hop isLen_bodyLen isLen_bodyLen hl.shape hr.shape hst
    rw [hd] at herr
    cases herr
  obtain ⟨z, hz, hshape, hrows⟩ := hpc.compare hop isLen_bodyLen isLen_bodyLen hl.shape hr.shape hl.known
  rw [hd] at hz
  cases hz
  refine ⟨by simp [hl.paTy, hr.paTy], .inr rfl, by rwa [bodyLen_compare], fun hx hc => ?_⟩
  obtain ⟨v, hv⟩ := hx.compare.1.exists_row hl.shape
  obtain ⟨w, hw⟩ := hx.compare.2.exists_row hr.shape
  rw [hrows _ v w _ _ _ hv (hl.words hx.compare.1 hv) hw (hr.words hx.compare.2 hw) hc]
  rfl

theorem exists_compare {op : PyCmpOp} (hpc : pc.Documented o) (hop : arrowCmpOp op = true)
    (hl : Computes o param arr left l s) (hr : Computes o param arr right r t)
    (hty : (PyExpr.compare left [op] [right]).paTy.isSome = true) : ∃ d, pc.compare op l r = .ok d := by
  have htypes : left.paTy = right.paTy := by
    by_contra hne
    simp [hne] at hty
  obtain rfl : s = t := by simpa [hl.paTy, hr.paTy] using htypes
  obtain ⟨z, hz, -⟩ := hpc.compare hop isLen_bodyLen isLen_bodyLen hl.shape hr.shape hl.known
  exact ⟨z, hz⟩

/-! ### Ternaries -/

theorem ifExp (hpc : pc.Documented o) (hc : Computes o param arr test c s) (hy : Computes o param arr body y t)
    (hn : Computes o param arr orelse n u) (hd : pc.ifElse c y n = .ok d) :
    Computes o param arr (.ifExp test body orelse) d t := by
  obtain rfl : s = .bool := hc.known.resolve_left fun h => by
    subst h
    obtain ⟨err, herr⟩ := hpc.ifElseTest isLen_bodyLen isLen_bodyLen isLen_bodyLen hc.shape hy.shape
      hn.shape
    rw [hd] at herr
    cases herr
  obtain rfl : t = u := by
    by_contra htu
    obtain ⟨err, herr⟩ := hpc.ifElseArms isLen_bodyLen isLen_bodyLen isLen_bodyLen hc.shape hy.shape
      hn.shape htu
    rw [hd] at herr
    cases herr
  obtain ⟨z, hz, hshape, hrows⟩ := hpc.ifElse isLen_bodyLen isLen_bodyLen isLen_bodyLen hc.shape hy.shape
    hn.shape hy.known
  rw [hd] at hz
  cases hz
  refine ⟨by simp [hc.paTy, hy.paTy, hn.paTy], hy.known, by rwa [bodyLen_ifExp],
    fun hx hv => ?_⟩
  obtain ⟨b, hb, htest⟩ := hc.bool_row hx.ifExp.1
  have hrow := hrows _ _ _ hb hv
  rw [PyExpr.wordAt, htest]
  cases b with
  | true =>
    rw [if_pos (by decide)]
    exact hy.words hx.ifExp.2.1 (by simpa using hrow)
  | false =>
    rw [if_neg (by decide)]
    exact hn.words hx.ifExp.2.2 (by simpa using hrow)

theorem exists_ifExp (hpc : pc.Documented o) (hc : Computes o param arr test c s)
    (hy : Computes o param arr body y t) (hn : Computes o param arr orelse n u)
    (hty : (PyExpr.ifExp test body orelse).paTy.isSome = true) : ∃ d, pc.ifElse c y n = .ok d := by
  have htypes : test.paTy = some .bool ∧ body.paTy = orelse.paTy := by
    by_contra hne
    simp [hne] at hty
  obtain rfl : s = .bool := by simpa [htypes.1] using hc.paTy.symm
  obtain rfl : t = u := by simpa [hy.paTy, hn.paTy] using htypes.2
  obtain ⟨z, hz, -⟩ := hpc.ifElse isLen_bodyLen isLen_bodyLen isLen_bodyLen hc.shape hy.shape
    hn.shape hy.known
  exact ⟨z, hz⟩

end Computes

/-! ## Types of operands -/

theorem paTy_operand {op : PyUnaryOp} (h : (PyExpr.unaryOp op e).paTy.isSome = true) :
    e.paTy.isSome = true := by
  simp only [PyExpr.paTy] at h
  split at h
  · exact h
  · cases h

theorem paTy_binOp {op : PyBinOp} (h : (PyExpr.binOp left op right).paTy.isSome = true) :
    left.paTy.isSome = true ∧ right.paTy.isSome = true := by
  simp only [PyExpr.paTy] at h
  split at h
  · next htypes => simp [htypes]
  · cases h

theorem paTy_compare {op : PyCmpOp} (h : (PyExpr.compare left [op] [right]).paTy.isSome = true) :
    left.paTy.isSome = true ∧ right.paTy.isSome = true := by
  simp only [PyExpr.paTy] at h
  split at h
  · next htypes => exact ⟨htypes.2, htypes.1 ▸ htypes.2⟩
  · cases h

theorem paTy_ifExp (h : (PyExpr.ifExp test body orelse).paTy.isSome = true) :
    test.paTy.isSome = true ∧ body.paTy.isSome = true ∧ orelse.paTy.isSome = true := by
  simp only [PyExpr.paTy] at h
  split at h
  · next htypes => exact ⟨by simp [htypes.1], h, htypes.2 ▸ h⟩
  · cases h

/-! ## Closures that return -/

/-- Every divisor, in all arms. -/
def DivisorsOk (overflow : ℤ) (param : String) (arr : List ℤ) (e : PyExpr F) : Prop :=
  ∀ q ∈ e.quotients, ∀ x, RunsOn param arr (.binOp q.1 .div q.2) x → q.2.wordAt overflow x ≠ 0

theorem DivisorsOk.of_operands (es : List (PyExpr F)) (h : ∀ c ∈ es, DivisorsOk o param arr c)
    (he : e.quotients = es.flatMap PyExpr.quotients) : DivisorsOk o param arr e := by
  intro q hq
  rw [he, List.mem_flatMap] at hq
  obtain ⟨c, hc, hqc⟩ := hq
  exact h c hc q hqc

/-- A closure that returns has computed the body, and has met no zero divisor. -/
theorem datum_computes (hpc : pc.Documented o) (harr : ∀ x ∈ arr, Fits 64 x) {e : PyExpr F}
    (h : e.isIntBody param = true) (hconst : ∀ n ∈ e.intConstants, Fits 64 n) {d : Datum F}
    (hd : pc.datum param arr e = .ok d) : (∃ t, Computes o param arr e d t) ∧ DivisorsOk o param arr e := by
  fun_induction PyExpr.isIntBody param e generalizing d with
  | case1 id =>
    have hid : id = param := by simpa using h
    subst hid
    simp only [PaCompute.datum, PaCompute.lower, if_true, Except.ok.injEq] at hd
    subst hd
    exact ⟨⟨.int64, .array harr⟩, by simp [DivisorsOk]⟩
  | case2 b =>
    cases hd
    exact ⟨⟨.bool, .bool b⟩, by simp [DivisorsOk]⟩
  | case3 n =>
    cases hd
    exact ⟨⟨.int64, .int (hconst n (by simp))⟩,
      by simp [DivisorsOk]⟩
  | case4 op operand ih =>
    obtain ⟨a, ha, hd⟩ := (datum_unary h).mp hd
    simp only [Bool.and_eq_true] at h
    obtain ⟨⟨t, hcomp⟩, hdiv⟩ := ih h.2 hconst ha
    exact ⟨hcomp.unary hpc h.1 hd, hdiv⟩
  | case5 left op right ihl ihr =>
    obtain ⟨l, r, hl, hr, hd⟩ := (datum_binOp h).mp hd
    simp only [Bool.and_eq_true] at h
    simp only [PyExpr.intConstants, List.mem_append] at hconst
    obtain ⟨⟨s, hcl⟩, hdivl⟩ := ihl h.1.2 (fun n hn => hconst n (.inl hn)) hl
    obtain ⟨⟨t, hcr⟩, hdivr⟩ := ihr h.2 (fun n hn => hconst n (.inr hn)) hr
    obtain ⟨hcomp, hnz⟩ := hcl.binOp hpc h.1.1 hcr hd
    refine ⟨⟨_, hcomp⟩, fun q hq => ?_⟩
    simp only [PyExpr.quotients, List.mem_append] at hq
    rcases hq with hq | hq | hq
    · split at hq
      · next hop =>
        subst hop
        obtain rfl := List.mem_singleton.mp hq
        exact hnz rfl
      · cases hq
    · exact hdivl q hq
    · exact hdivr q hq
  | case6 left op right ihl ihr =>
    obtain ⟨l, r, hl, hr, hd⟩ := (datum_compare h).mp hd
    simp only [Bool.and_eq_true] at h
    simp only [PyExpr.intConstants, List.mem_append] at hconst
    obtain ⟨⟨s, hcl⟩, hdivl⟩ := ihl h.1.2 (fun n hn => hconst n (.inl hn)) hl
    obtain ⟨⟨t, hcr⟩, hdivr⟩ := ihr h.2 (fun n hn => hconst n (.inr hn)) hr
    refine ⟨⟨_, hcl.compare hpc h.1.1 hcr hd⟩, .of_operands [left, right] ?_ (by simp)⟩
    simp [hdivl, hdivr]
  | case7 test body orelse iht ihy ihn =>
    obtain ⟨c, y, n, hc, hy, hn, hd⟩ := (datum_ifExp h).mp hd
    simp only [Bool.and_eq_true] at h
    simp only [PyExpr.intConstants, List.mem_append] at hconst
    obtain ⟨⟨s, hcc⟩, hdivc⟩ := iht h.1.1 (fun m hm => hconst m (.inl hm)) hc
    obtain ⟨⟨t, hcy⟩, hdivy⟩ := ihy h.1.2 (fun m hm => hconst m (.inr (.inl hm))) hy
    obtain ⟨⟨u, hcn⟩, hdivn⟩ := ihn h.2 (fun m hm => hconst m (.inr (.inr hm))) hn
    refine ⟨⟨_, hcc.ifExp hpc hcy hcn hd⟩, .of_operands [test, body, orelse] ?_ (by simp)⟩
    simp [hdivc, hdivy, hdivn]
  | case8 => cases h

/-- The closure of a typed body returns, if no divisor is zero. -/
theorem exists_datum (hpc : pc.Documented o) (harr : ∀ x ∈ arr, Fits 64 x) {e : PyExpr F}
    (h : e.isIntBody param = true) (hconst : ∀ n ∈ e.intConstants, Fits 64 n)
    (hty : e.paTy.isSome = true) (hdiv : DivisorsOk o param arr e) :
    ∃ d, pc.datum param arr e = .ok d := by
  fun_induction PyExpr.isIntBody param e with
  | case1 id =>
    have hid : id = param := by simpa using h
    exact ⟨.array .int64 (arr.map .int), by simp [PaCompute.datum, PaCompute.lower, hid]⟩
  | case2 b => exact ⟨_, rfl⟩
  | case3 n => exact ⟨_, rfl⟩
  | case4 op operand ih =>
    have h' := h
    simp only [Bool.and_eq_true] at h'
    obtain ⟨a, ha⟩ := ih h'.2 hconst (paTy_operand hty) hdiv
    obtain ⟨⟨t, hcomp⟩, -⟩ := datum_computes hpc harr h'.2 hconst ha
    obtain ⟨d, hd⟩ := hcomp.exists_unary hpc h'.1 hty
    exact ⟨d, (datum_unary h).mpr ⟨a, ha, hd⟩⟩
  | case5 left op right ihl ihr =>
    have h' := h
    simp only [Bool.and_eq_true] at h'
    simp only [PyExpr.intConstants, List.mem_append] at hconst
    obtain ⟨htl, htr⟩ := paTy_binOp hty
    obtain ⟨l, hl⟩ := ihl h'.1.2 (fun n hn => hconst n (.inl hn)) htl
      fun q hq => hdiv q (by simp [hq])
    obtain ⟨r, hr⟩ := ihr h'.2 (fun n hn => hconst n (.inr hn)) htr
      fun q hq => hdiv q (by simp [hq])
    obtain ⟨⟨s, hcl⟩, -⟩ := datum_computes hpc harr h'.1.2 (fun n hn => hconst n (.inl hn)) hl
    obtain ⟨⟨t, hcr⟩, -⟩ := datum_computes hpc harr h'.2 (fun n hn => hconst n (.inr hn)) hr
    obtain ⟨d, hd⟩ := hcl.exists_binOp hpc h'.1.1 hcr hty fun hop x hx => by
      subst hop
      exact hdiv (left, right) (by simp) x hx
    exact ⟨d, (datum_binOp h).mpr ⟨l, r, hl, hr, hd⟩⟩
  | case6 left op right ihl ihr =>
    have h' := h
    simp only [Bool.and_eq_true] at h'
    simp only [PyExpr.intConstants, List.mem_append] at hconst
    obtain ⟨htl, htr⟩ := paTy_compare hty
    obtain ⟨l, hl⟩ := ihl h'.1.2 (fun n hn => hconst n (.inl hn)) htl
      fun q hq => hdiv q (by simp [hq])
    obtain ⟨r, hr⟩ := ihr h'.2 (fun n hn => hconst n (.inr hn)) htr
      fun q hq => hdiv q (by simp [hq])
    obtain ⟨⟨s, hcl⟩, -⟩ := datum_computes hpc harr h'.1.2 (fun n hn => hconst n (.inl hn)) hl
    obtain ⟨⟨t, hcr⟩, -⟩ := datum_computes hpc harr h'.2 (fun n hn => hconst n (.inr hn)) hr
    obtain ⟨d, hd⟩ := hcl.exists_compare hpc h'.1.1 hcr hty
    exact ⟨d, (datum_compare h).mpr ⟨l, r, hl, hr, hd⟩⟩
  | case7 test body orelse iht ihy ihn =>
    have h' := h
    simp only [Bool.and_eq_true] at h'
    simp only [PyExpr.intConstants, List.mem_append] at hconst
    obtain ⟨htc, hty', htn⟩ := paTy_ifExp hty
    have hconstT : ∀ n ∈ test.intConstants, Fits 64 n := fun m hm => hconst m (.inl hm)
    have hconstY : ∀ n ∈ body.intConstants, Fits 64 n := fun m hm => hconst m (.inr (.inl hm))
    have hconstN : ∀ n ∈ orelse.intConstants, Fits 64 n := fun m hm => hconst m (.inr (.inr hm))
    obtain ⟨c, hc⟩ := iht h'.1.1 hconstT htc fun q hq => hdiv q (by simp [hq])
    obtain ⟨y, hy⟩ := ihy h'.1.2 hconstY hty' fun q hq => hdiv q (by simp [hq])
    obtain ⟨n, hn⟩ := ihn h'.2 hconstN htn fun q hq => hdiv q (by simp [hq])
    obtain ⟨⟨s, hcc⟩, -⟩ := datum_computes hpc harr h'.1.1 hconstT hc
    obtain ⟨⟨t, hcy⟩, -⟩ := datum_computes hpc harr h'.1.2 hconstY hy
    obtain ⟨⟨u, hcn⟩, -⟩ := datum_computes hpc harr h'.2 hconstN hn
    obtain ⟨d, hd⟩ := hcc.exists_ifExp hpc hcy hcn hty
    exact ⟨d, (datum_ifExp h).mpr ⟨c, y, n, hc, hy, hn, hd⟩⟩
  | case8 => cases h

/-! ## Constants -/

theorem valueAt_bare {e : PyExpr F} {n : ℤ} (h : e.bare = some n) : e.valueAt param x = .ok (.int n) := by
  fun_induction PyExpr.bare e with
  | case1 m =>
    cases h
    rfl
  | case2 operand ih => simp [PyExpr.valueAt, ih h, bodyUnary, PyVal.asInt, bind, Except.bind]
  | case3 => cases h

theorem isIntBody_bare {e : PyExpr F} {n : ℤ} (h : e.bare = some n) : e.isIntBody param = true := by
  fun_induction PyExpr.bare e with
  | case1 m => rfl
  | case2 operand ih => simp [PyExpr.isIntBody, arrowUnaryOp, ih h]
  | case3 => cases h

theorem datum_bare {e : PyExpr F} {n : ℤ} (h : e.bare = some n) :
    pc.datum param arr e = .ok (tooBig F n) := by
  fun_induction PyExpr.bare e with
  | case1 m =>
    cases h
    rfl
  | case2 operand ih =>
    have hbody : (PyExpr.unaryOp .uAdd operand).isIntBody param = true := by
      simp [PyExpr.isIntBody, arrowUnaryOp, isIntBody_bare h]
    exact (datum_unary hbody).mpr ⟨_, ih h, rfl⟩
  | case3 => cases h

theorem datum_eq_tooBig {n : ℤ} (hn : e.bare = some n) (hd : pc.datum param arr e = .ok d) :
    d = tooBig F n := by
  rw [datum_bare hn] at hd
  cases hd
  rfl

theorem bare_spec {e : PyExpr F} {n : ℤ} (h : e.bare = some n) :
    e.paTy = some .int64 ∧ e.quotients = [] ∧ e.passed = [] := by
  refine ⟨?_, ?_, by simp [PyExpr.passed, h]⟩
  · fun_induction PyExpr.bare e with
    | case1 m => rfl
    | case2 operand ih => simp [ih h]
    | case3 => cases h
  · fun_induction PyExpr.bare e with
    | case1 m => rfl
    | case2 operand ih => exact ih h
    | case3 => cases h

/-- An operand whose kernel returns. -/
theorem operand_fits (h : (∀ n ∈ e.intConstants, Fits 64 n) ∨ ∃ n, e.bare = some n ∧ ¬ Fits 64 n)
    (hd : pc.datum param arr e = .ok d) (hno : ∀ {n}, ¬ Fits 64 n → d ≠ tooBig F n) :
    ∀ n ∈ e.intConstants, Fits 64 n := by
  rcases h with h | ⟨n, hn, hbig⟩
  · exact h
  · exact absurd (datum_eq_tooBig hn hd) (hno hbig)

/-- What a kernel is given fits; only a body that is a constant is not given to one. -/
theorem fits_or_bare (hpc : pc.Documented o) {e : PyExpr F} (h : e.isIntBody param = true) {d : Datum F}
    (hd : pc.datum param arr e = .ok d) :
    (∀ n ∈ e.intConstants, Fits 64 n) ∨ ∃ n, e.bare = some n ∧ ¬ Fits 64 n := by
  fun_induction PyExpr.isIntBody param e generalizing d with
  | case1 | case2 => exact .inl (by simp)
  | case3 n =>
    by_cases hn : Fits 64 n
    · exact .inl (by simpa using hn)
    · exact .inr ⟨n, rfl, hn⟩
  | case4 op operand ih =>
    obtain ⟨a, ha, hd⟩ := (datum_unary h).mp hd
    simp only [Bool.and_eq_true] at h
    rcases ih h.2 ha with hfits | ⟨n, hn, hbig⟩
    · exact .inl hfits
    · by_cases hplus : op = .uAdd
      · subst hplus
        exact .inr ⟨n, hn, hbig⟩
      · rw [datum_bare hn] at ha
        cases ha
        obtain ⟨err, herr⟩ : ∃ err, pc.unaryOp op (tooBig F n) = .error err := hpc.bigUnary hbig
        simp [PaCompute.unary, hplus, herr] at hd
  | case5 left op right ihl ihr =>
    obtain ⟨l, r, hl, hr, hd⟩ := (datum_binOp h).mp hd
    simp only [Bool.and_eq_true] at h
    have hno : ∀ {n}, ¬ Fits 64 n → ¬ (l = tooBig F n ∨ r = tooBig F n) := fun hbig hlr => by
      obtain ⟨err, herr⟩ : ∃ err, pc.binOp op l r = .error err := hpc.bigOperand hbig hlr
      rw [hd] at herr
      cases herr
    have hfl := operand_fits (ihl h.1.2 hl) hl fun hbig heq => hno hbig (.inl heq)
    have hfr := operand_fits (ihr h.2 hr) hr fun hbig heq => hno hbig (.inr heq)
    simp only [PyExpr.intConstants, List.mem_append]
    exact .inl fun n hn => hn.elim (hfl n) (hfr n)
  | case6 left op right ihl ihr =>
    obtain ⟨l, r, hl, hr, hd⟩ := (datum_compare h).mp hd
    simp only [Bool.and_eq_true] at h
    have hno : ∀ {n}, ¬ Fits 64 n → ¬ (l = tooBig F n ∨ r = tooBig F n) := fun hbig hlr => by
      obtain ⟨err, herr⟩ : ∃ err, pc.compare op l r = .error err := hpc.bigCompare hbig hlr
      rw [hd] at herr
      cases herr
    have hfl := operand_fits (ihl h.1.2 hl) hl fun hbig heq => hno hbig (.inl heq)
    have hfr := operand_fits (ihr h.2 hr) hr fun hbig heq => hno hbig (.inr heq)
    simp only [PyExpr.intConstants, List.mem_append]
    exact .inl fun n hn => hn.elim (hfl n) (hfr n)
  | case7 test body orelse iht ihy ihn =>
    obtain ⟨c, y, n, hc, hy, hn, hd⟩ := (datum_ifExp h).mp hd
    simp only [Bool.and_eq_true] at h
    have hno : ∀ {k}, ¬ Fits 64 k → ¬ (c = tooBig F k ∨ y = tooBig F k ∨ n = tooBig F k) :=
      fun hbig hbranch => by
        obtain ⟨err, herr⟩ := hpc.bigIfElse hbig hbranch
        rw [hd] at herr
        cases herr
    have hft := operand_fits (iht h.1.1 hc) hc fun hbig heq => hno hbig (.inl heq)
    have hfy := operand_fits (ihy h.1.2 hy) hy fun hbig heq => hno hbig (.inr (.inl heq))
    have hfn := operand_fits (ihn h.2 hn) hn fun hbig heq => hno hbig (.inr (.inr heq))
    simp only [PyExpr.intConstants, List.mem_append]
    exact .inl fun k hk => hk.elim (hft k) fun hk => hk.elim (hfy k) (hfn k)
  | case8 => cases h

end Bodies

end Gilmap
