import Gilmap.Python.HostFloats
import Gilmap.Python.TryCompile
import Gilmap.Python.WalkerSpec

/-! # The walker's dtypes and Python's types

The walker gives every expression one dtype, whatever the values: `f64` wins over `i64` in
both arms of a ternary, and what `math` returns is `f64`. Python's type of a result depends
on the values.
-/
namespace Gilmap
variable {F : Type}

/-! ## The parts that Python evaluates -/

/-- The operands that Python evaluates for a node; of a ternary, the selected arm. -/
def PyFloats.parts (py : PyFloats F) (fr : PyFrame F) : PyExpr F → List (PyExpr F)
  | .unaryOp _ operand => [operand]
  | .binOp left _ right => [left, right]
  | .compare left [_] [right] => [left, right]
  | .ifExp test body orelse =>
    test :: match py.eval fr test >>= py.truthy with
      | .ok true => [body]
      | .ok false => [orelse]
      | .error _ => []
  | .call _ [arg] [] => [arg]
  | _ => []

/-- The evaluation of one expression contains that of another. -/
inductive PyFloats.Evaluates (py : PyFloats F) (fr : PyFrame F) : PyExpr F → PyExpr F → Prop
  | self (e : PyExpr F) : Evaluates py fr e e
  | part {e c p : PyExpr F} : c ∈ py.parts fr e → Evaluates py fr c p → Evaluates py fr e p

/-! ## Types of values -/

/-- The dtype is `f64` for a `float` and for nothing else, and `i64` for an `int` or `bool`. -/
def Agrees (d : Dtype) (v : PyVal F) : Prop :=
  (d = .f64 ↔ v.isFloat = true) ∧ (d = .i64 ↔ v.isInt = true)

theorem agrees_f64 {v : PyVal F} : Agrees .f64 v ↔ v.isFloat = true := by
  cases v <;> simp [Agrees, PyVal.isFloat, PyVal.isInt]

theorem agrees_i64 {v : PyVal F} : Agrees .i64 v ↔ v.isInt = true := by
  cases v <;> simp [Agrees, PyVal.isFloat, PyVal.isInt]

theorem Agrees.unique {d d' : Dtype} {v : PyVal F} (h : Agrees d v) (h' : Agrees d' v) : d = d' := by
  cases d <;> cases d' <;> cases v <;> simp_all [Agrees, PyVal.isFloat, PyVal.isInt]

section Values
variable {py : PyFloats F} {l r v : PyVal F} {op : BinOp} {a b : ℤ}

theorem PyVal.num_of_isInt (h : v.isInt = true) : ∃ n, v.num = .ok (.int n) := by
  cases v with
  | int n => exact ⟨n, rfl⟩
  | bool b => exact ⟨b.toInt, rfl⟩
  | float x => cases h
  | complex => cases h

theorem PyFloats.binOp_ints (hl : l.num = .ok (.int a)) (hr : r.num = .ok (.int b)) :
    py.binOp op l r = py.intOp op a b := by
  simp only [PyFloats.binOp, hl, hr, bind, Except.bind]

theorem PyFloats.binOp_floats (h : l.isFloat = true ∨ r.isFloat = true)
    (hv : py.binOp op l r = .ok v) : ∃ x y, py.floatOp op x y = .ok v := by
  simp only [PyFloats.binOp, Except.bind_eq_ok] at hv
  obtain ⟨m, hm, n, hn, hv⟩ := hv
  have hfloat : ∀ {m n : PyNum F}, (py.numToFloat m >>= fun x => py.numToFloat n >>= fun y =>
      py.floatOp op x y) = .ok v → ∃ x y, py.floatOp op x y = .ok v := by
    intro m n h
    simp only [Except.bind_eq_ok] at h
    obtain ⟨x, -, y, -, h⟩ := h
    exact ⟨x, y, h⟩
  cases m with
  | float x => exact hfloat hv
  | int a =>
    cases n with
    | float y => exact hfloat hv
    | int b => cases l <;> cases r <;> simp [PyVal.isFloat, PyVal.num] at h hm hn

theorem PyFloats.floatOp_isFloat {x y : F} (h : py.floatOp op x y = .ok v) (hop : op ≠ .pow) :
    v.isFloat = true := by
  cases op with
  | add | sub | mul =>
    cases h
    rfl
  | div | floorDiv | mod =>
    simp only [PyFloats.floatOp] at h
    split at h <;> cases h
    rfl
  | pow => exact absurd rfl hop

theorem PyFloats.intOp_isInt (h : py.intOp op a b = .ok v) (hdiv : op ≠ .div) (hpow : op ≠ .pow) :
    v.isInt = true := by
  cases op with
  | add | sub | mul =>
    cases h
    rfl
  | floorDiv | mod =>
    simp only [PyFloats.intOp] at h
    split at h <;> cases h
    rfl
  | div => exact absurd rfl hdiv
  | pow => exact absurd rfl hpow

theorem PyFloats.intOp_div_isFloat (h : py.intOp .div a b = .ok v) : v.isFloat = true := by
  simp only [PyFloats.intOp] at h
  split at h
  · cases h
  · cases hd : py.divInts a b with
    | error e =>
      rw [hd] at h
      cases h
    | ok x =>
      rw [hd] at h
      cases h
      rfl

theorem PyFloats.powFloats_isFloat {x y : F} (h : py.powFloats x y = .ok v) (hv : v ≠ .complex) :
    v.isFloat = true := by
  simp only [PyFloats.powFloats] at h
  cases hp : py.pow x y with
  | error e =>
    rw [hp] at h
    cases h
  | ok z =>
    rw [hp] at h
    cases z with
    | none =>
      cases h
      exact absurd rfl hv
    | some z =>
      cases h
      rfl

theorem PyFloats.powFloats_isInt {x y : F} (h : py.powFloats x y = .ok v) : v.isInt = false := by
  simp only [PyFloats.powFloats] at h
  cases hp : py.pow x y with
  | error e =>
    rw [hp] at h
    cases h
  | ok z =>
    rw [hp] at h
    cases z <;> cases h <;> rfl

/-- A power of integers is an integer just for the exponents that are not negative. -/
theorem PyFloats.intOp_pow_isInt (h : py.intOp .pow a b = .ok v) : v.isInt = true ↔ 0 ≤ b := by
  simp only [PyFloats.intOp] at h
  split at h
  · rename_i hb
    cases h
    simp [PyVal.isInt, hb]
  · rename_i hb
    simp only [Except.bind_eq_ok] at h
    obtain ⟨x, -, y, -, h⟩ := h
    simp [PyFloats.powFloats_isInt h, hb]

theorem PyFloats.unary_agrees {d : Dtype} {op : UnaryOp} (ha : Agrees d l)
    (h : py.unary op l = .ok v) : Agrees d v := by
  simp only [PyFloats.unary, Except.bind_eq_ok] at h
  obtain ⟨n, hn, h⟩ := h
  cases d with
  | i64 =>
    obtain ⟨m, hm⟩ := PyVal.num_of_isInt (agrees_i64.mp ha)
    rw [hm] at hn
    cases hn
    cases op <;> cases h <;> exact agrees_i64.mpr rfl
  | f64 =>
    cases l <;> simp [agrees_f64, PyVal.isFloat] at ha
    cases hn
    cases op <;> cases h <;> exact agrees_f64.mpr rfl

end Values

/-! ## Where the dtype is Python's type -/

def Walker.tag? (w : Walker) (name : String) : Option Dtype :=
  if name = w.param then some w.inputDtype else w.locals.lookup name

/-- A float occurs where it makes the whole expression one. -/
def floatShaped (w : Walker) : PyExpr F → Bool
  | .name id => w.tag? id = some .f64
  | .constant (.float _) => true
  | .unaryOp _ operand => floatShaped w operand
  | .binOp left _ right => floatShaped w left || floatShaped w right
  | .ifExp _ body orelse => floatShaped w body || floatShaped w orelse
  | .call (.attribute _ _) _ _ => true
  | .call (.name id) _ _ => id = "float"
  | _ => false

/-- The values of the locals and of the parameter have the types of their dtypes. -/
def TypedFrame (w : Walker) (fr : PyFrame F) : Prop :=
  ∀ name d v, w.tag? name = some d → fr.vals name = some v → Agrees d v

/-- The node is not a true division of two integers. -/
def PyFloats.NoIntDiv (py : PyFloats F) (fr : PyFrame F) : PyExpr F → Prop
  | .binOp left .div right => ∀ a b, py.eval fr left = .ok a → py.eval fr right = .ok b →
    a.isFloat = true ∨ b.isFloat = true
  | _ => True

/-- What keeps the type of a node with the value `v`: a power is real and an integer's
exponent not negative, `math.floor` and `math.ceil` are not called, and a ternary does not
select an integer while its other arm is a float. -/
def PyFloats.KeepsType (py : PyFloats F) (w : Walker) (fr : PyFrame F) (v : PyVal F) :
    PyExpr F → Prop
  | .binOp left .pow right => v ≠ .complex ∧ ∀ a b n, py.eval fr left = .ok a →
    py.eval fr right = .ok b → a.isInt = true → b.num = .ok (.int n) → 0 ≤ n
  | .call (.attribute (.name "math") attr) [_] [] => attr ≠ "floor" ∧ attr ≠ "ceil"
  | .ifExp test body orelse => v.isInt = true → ∀ b, (py.eval fr test >>= py.truthy) = .ok b →
    floatShaped w (if b then orelse else body) = false
  | _ => True

/-- The dtype that the walker returns is Python's type of the value, if there is one. -/
def PyFloats.TagRight (py : PyFloats F) (w : Walker) (fr : PyFrame F) (e : PyExpr F) : Prop :=
  ∀ ir d v, w.expr e = .ok (ir, d) → py.eval fr e = .ok v → Agrees d v

section Tags
variable {py : PyFloats F} {w : Walker} {fr : PyFrame F} {e : PyExpr F} {ir : Expr F} {d : Dtype}
  {v : PyVal F}

theorem Accepts.floatShaped_iff (h : Accepts w e ir d) : floatShaped w e = true ↔ d = .f64 := by
  induction h with
  | param => simp [floatShaped, Walker.tag?]
  | localVar hne hl => simp [floatShaped, Walker.tag?, hne, hl]
  | bool | int | compare => simp [floatShaped]
  | float | math => simp [floatShaped]
  | toInt | toFloat => simp [floatShaped]
  | unaryOp _ _ ih => simpa [floatShaped] using ih
  | binOp _ _ _ _ ihl ihr => simp [floatShaped, ihl, ihr, Dtype.join_eq_f64]
  | ifExp _ _ _ _ ihy ihn => simp [floatShaped, ihy, ihn, Dtype.join_eq_f64]

theorem Accepts.tagRight_iff (h : Accepts w e ir d) :
    py.TagRight w fr e ↔ ∀ v, py.eval fr e = .ok v → Agrees d v := by
  constructor
  · intro ht v hv
    exact ht ir d v h.expr_eq hv
  · intro ht ir' d' v hir hv
    rw [h.expr_eq] at hir
    cases hir
    exact ht v hv

theorem PyFloats.eval_binOp {left right : PyExpr F} {op : PyBinOp} {irOp : BinOp}
    (hop : binOpMap op = some irOp) (hv : py.eval fr (.binOp left op right) = .ok v) :
    ∃ a b, py.eval fr left = .ok a ∧ py.eval fr right = .ok b ∧ py.binOp irOp a b = .ok v := by
  simp only [PyFloats.eval, hop, Except.bind_eq_ok] at hv
  obtain ⟨a, ha, b, hb, hv⟩ := hv
  exact ⟨a, b, ha, hb, hv⟩

/-- The result of an operator other than `/` and `**`. -/
theorem PyFloats.binOp_agrees {irOp : BinOp} {a b : PyVal F} {lt rt : Dtype} (ha : Agrees lt a)
    (hb : Agrees rt b) (hv : py.binOp irOp a b = .ok v) (hdiv : irOp ≠ .div) (hpow : irOp ≠ .pow) :
    Agrees (lt.join rt) v := by
  rcases Dtype.join_cases lt rt with hf | ⟨rfl, rfl⟩
  · rw [hf, agrees_f64]
    have hfloat : a.isFloat = true ∨ b.isFloat = true := by
      rcases Dtype.join_eq_f64.mp hf with rfl | rfl
      · exact .inl (agrees_f64.mp ha)
      · exact .inr (agrees_f64.mp hb)
    obtain ⟨x, y, hv⟩ := py.binOp_floats hfloat hv
    exact py.floatOp_isFloat hv hpow
  · obtain ⟨m, hm⟩ := PyVal.num_of_isInt (agrees_i64.mp ha)
    obtain ⟨n, hn⟩ := PyVal.num_of_isInt (agrees_i64.mp hb)
    rw [py.binOp_ints hm hn] at hv
    exact agrees_i64.mpr (py.intOp_isInt hv hdiv hpow)

theorem PyFloats.div_agrees_iff {a b : PyVal F} {lt rt : Dtype} (ha : Agrees lt a)
    (hb : Agrees rt b) (hv : py.binOp .div a b = .ok v) :
    Agrees (lt.join rt) v ↔ a.isFloat = true ∨ b.isFloat = true := by
  have hfloat : v.isFloat = true := by
    by_cases h : a.isFloat = true ∨ b.isFloat = true
    · obtain ⟨x, y, hv⟩ := py.binOp_floats h hv
      exact py.floatOp_isFloat hv (by simp)
    · have hlt : lt = .i64 := by
        cases lt with
        | i64 => rfl
        | f64 => exact absurd (.inl (agrees_f64.mp ha)) h
      have hrt : rt = .i64 := by
        cases rt with
        | i64 => rfl
        | f64 => exact absurd (.inr (agrees_f64.mp hb)) h
      subst hlt hrt
      obtain ⟨m, hm⟩ := PyVal.num_of_isInt (agrees_i64.mp ha)
      obtain ⟨n, hn⟩ := PyVal.num_of_isInt (agrees_i64.mp hb)
      rw [py.binOp_ints hm hn] at hv
      exact py.intOp_div_isFloat hv
  have hf64 : Agrees .f64 v := agrees_f64.mpr hfloat
  rw [← (ha.1 : lt = .f64 ↔ _), ← (hb.1 : rt = .f64 ↔ _), ← Dtype.join_eq_f64]
  constructor
  · intro h
    exact h.unique hf64
  · intro h
    rwa [h]

theorem PyFloats.pow_agrees_iff {a b : PyVal F} {lt rt : Dtype} (ha : Agrees lt a)
    (hb : Agrees rt b) (hv : py.binOp .pow a b = .ok v) :
    Agrees (lt.join rt) v ↔
      v ≠ .complex ∧ ∀ n, a.isInt = true → b.num = .ok (.int n) → 0 ≤ n := by
  rcases Dtype.join_cases lt rt with hf | ⟨rfl, rfl⟩
  · have hfloat : a.isFloat = true ∨ b.isFloat = true := by
      rcases Dtype.join_eq_f64.mp hf with rfl | rfl
      · exact .inl (agrees_f64.mp ha)
      · exact .inr (agrees_f64.mp hb)
    obtain ⟨x, y, hv⟩ := py.binOp_floats hfloat hv
    rw [hf, agrees_f64]
    constructor
    · intro h
      refine ⟨fun hc => by simp [hc, PyVal.isFloat] at h, fun n hint hn => ?_⟩
      rcases hfloat with h' | h'
      · cases a <;> simp [PyVal.isFloat, PyVal.isInt] at h' hint
      · cases b <;> simp [PyVal.isFloat, PyVal.num] at h' hn
    · intro h
      exact py.powFloats_isFloat hv h.1
  · obtain ⟨m, hm⟩ := PyVal.num_of_isInt (agrees_i64.mp ha)
    obtain ⟨n, hn⟩ := PyVal.num_of_isInt (agrees_i64.mp hb)
    rw [py.binOp_ints hm hn] at hv
    have hint := py.intOp_pow_isInt hv
    rw [show Dtype.i64.join .i64 = .i64 from rfl, agrees_i64]
    constructor
    · intro h
      refine ⟨fun hc => by simp [hc, PyVal.isInt] at h, fun k _ hk => ?_⟩
      rw [hn] at hk
      cases hk
      exact hint.mp h
    · intro h
      exact hint.mpr (h.2 n (agrees_i64.mp ha) hn)

theorem PyFloats.mathCall_isFloat {fn : MathFn} {a : PyVal F} (h : py.mathCall fn a = .ok v) :
    v.isFloat = true ↔ fn ≠ .floor ∧ fn ≠ .ceil := by
  simp only [PyFloats.mathCall, Except.bind_eq_ok] at h
  obtain ⟨n, hn, h⟩ := h
  have hmap : ∀ {x : Except PyExc ℤ}, x.map PyVal.int = .ok v → v.isFloat = false := by
    intro x hx
    cases x <;> cases hx
    rfl
  have hfloat : ∀ {x : Except PyExc F}, x.map PyVal.float = .ok v → v.isFloat = true := by
    intro x hx
    cases x <;> cases hx
    rfl
  cases fn with
  | floor | ceil =>
    cases n with
    | int k =>
      cases h
      simp [PyVal.isFloat]
    | float x => simp [hmap h]
  | sqrt | abs | exp | log | sin | cos | tan => simp [hfloat h]

theorem PyFloats.toPyInt_isInt {a : PyVal F} (h : py.toPyInt a = .ok v) : v.isInt = true := by
  cases a with
  | float x =>
    simp only [PyFloats.toPyInt] at h
    cases hx : py.toInt x <;> rw [hx] at h <;> cases h
    rfl
  | int n | bool b =>
    cases h
    rfl
  | complex => cases h

theorem PyFloats.toPyFloat_isFloat {a : PyVal F} (h : py.toPyFloat a = .ok v) :
    v.isFloat = true := by
  cases a with
  | float x =>
    cases h
    rfl
  | int n =>
    simp only [PyFloats.toPyFloat] at h
    cases hx : py.ofInt n <;> rw [hx] at h <;> cases h
    rfl
  | bool b =>
    simp only [PyFloats.toPyFloat] at h
    cases hx : py.ofInt b.toInt <;> rw [hx] at h <;> cases h
    rfl
  | complex => cases h

/-- One node: if its operands have the types of their dtypes, it has when its kind keeps them. -/
theorem Accepts.agrees_iff (h : Accepts w e ir d) (htyped : TypedFrame w fr)
    (hdiv : py.NoIntDiv fr e) (hparts : ∀ c ∈ py.parts fr e, py.TagRight w fr c)
    (hv : py.eval fr e = .ok v) : Agrees d v ↔ py.KeepsType w fr v e := by
  have hread : ∀ {id : String}, w.tag? id = some d → py.eval fr (.name id) = .ok v → Agrees d v := by
    intro id htag hv
    simp only [PyFloats.eval, PyFrame.read] at hv
    cases hval : fr.vals id with
    | none =>
      rw [hval] at hv
      cases hv
    | some u =>
      rw [hval] at hv
      cases hv
      exact htyped id d v htag hval
  cases h with
  | param => exact iff_of_true (hread (by simp [Walker.tag?]) hv) trivial
  | localVar hne hl => exact iff_of_true (hread (by simp [Walker.tag?, hne, hl]) hv) trivial
  | bool b =>
    cases hv
    exact iff_of_true (agrees_i64.mpr rfl) trivial
  | int n =>
    cases hv
    exact iff_of_true (agrees_i64.mpr rfl) trivial
  | float x =>
    cases hv
    exact iff_of_true (agrees_f64.mpr rfl) trivial
  | unaryOp hop he =>
    simp only [PyFloats.eval, hop, Except.bind_eq_ok] at hv
    obtain ⟨a, ha, hv⟩ := hv
    have hagrees := he.tagRight_iff.mp (hparts _ List.mem_cons_self) a ha
    exact iff_of_true (py.unary_agrees hagrees hv) trivial
  | @binOp op irOp left right _ _ lt rt hop hl hr hmod =>
    obtain ⟨a, b, ha, hb, hv'⟩ := PyFloats.eval_binOp hop hv
    have hla := hl.tagRight_iff.mp (hparts left (by simp [PyFloats.parts])) a ha
    have hrb := hr.tagRight_iff.mp (hparts right (by simp [PyFloats.parts])) b hb
    have hother : irOp ≠ .div → irOp ≠ .pow → Agrees (lt.join rt) v :=
      py.binOp_agrees hla hrb hv'
    cases op <;> cases hop
    · exact iff_of_true (hother (by simp) (by simp)) trivial
    · exact iff_of_true (hother (by simp) (by simp)) trivial
    · exact iff_of_true (hother (by simp) (by simp)) trivial
    · -- `/`
      exact iff_of_true ((py.div_agrees_iff hla hrb hv').mpr (hdiv a b ha hb)) trivial
    · exact iff_of_true (hother (by simp) (by simp)) trivial
    · exact iff_of_true (hother (by simp) (by simp)) trivial
    · -- `**`
      rw [py.pow_agrees_iff hla hrb hv']
      simp only [PyFloats.KeepsType, ha, hb, Except.ok.injEq, ne_eq]
      constructor
      · rintro ⟨hc, hn⟩
        refine ⟨hc, ?_⟩
        rintro a' b' n rfl rfl
        exact hn n
      · rintro ⟨hc, hn⟩
        exact ⟨hc, fun n => hn a b n rfl rfl⟩
  | compare hop hl hr =>
    simp only [PyFloats.eval, hop, Except.bind_eq_ok] at hv
    obtain ⟨a, -, b, -, c, -, hv⟩ := hv
    cases hv
    exact iff_of_true (agrees_i64.mpr rfl) trivial
  | @ifExp test body orelse _ _ _ tt yt nt ht hy hn =>
    have hv' : ∃ b, (py.eval fr test >>= py.truthy) = .ok b ∧
        py.eval fr (if b then body else orelse) = .ok v := by
      simp only [PyFloats.eval, Except.bind_eq_ok] at hv
      obtain ⟨t, htest, b, hb, hv⟩ := hv
      refine ⟨b, Except.bind_eq_ok.mpr ⟨t, htest, hb⟩, ?_⟩
      cases b <;> exact hv
    obtain ⟨b, hb, harm⟩ := hv'
    have hmem : (if b then body else orelse) ∈ py.parts fr (.ifExp test body orelse) := by
      simp only [PyFloats.parts, hb]
      cases b <;> simp
    have hsel : Agrees (if b then yt else nt) v := by
      cases b with
      | true => exact hy.tagRight_iff.mp (hparts _ hmem) v harm
      | false => exact hn.tagRight_iff.mp (hparts _ hmem) v harm
    have hother : floatShaped w (if b then orelse else body) = true ↔
        (if b then nt else yt) = .f64 := by
      cases b with
      | true => exact hn.floatShaped_iff
      | false => exact hy.floatShaped_iff
    simp only [PyFloats.KeepsType, hb, Except.ok.injEq, forall_eq']
    cases b <;> cases yt <;> cases nt <;> cases v <;>
      simp_all [Agrees, Dtype.join, PyVal.isFloat, PyVal.isInt]
  | @math attr fn arg _ at_ hfn ha =>
    simp only [PyFloats.eval, hfn, Except.bind_eq_ok] at hv
    obtain ⟨-, -, hv⟩ := hv
    split at hv
    · cases hv
    · rename_i habs
      simp only [Except.bind_eq_ok] at hv
      obtain ⟨a, -, hv⟩ := hv
      rw [agrees_f64, py.mathCall_isFloat hv]
      have hmem := mem_of_lookup hfn
      simp only [mathMap, List.mem_cons, Prod.mk.injEq, List.not_mem_nil, or_false] at hmem
      rcases hmem with ⟨rfl, rfl⟩ | ⟨rfl, rfl⟩ | ⟨rfl, rfl⟩ | ⟨rfl, rfl⟩ | ⟨rfl, rfl⟩ | ⟨rfl, rfl⟩ |
        ⟨rfl, rfl⟩ | ⟨rfl, rfl⟩ | ⟨rfl, rfl⟩ | ⟨rfl, rfl⟩ <;> simp [PyFloats.KeepsType]
  | toInt ha =>
    simp only [PyFloats.eval, Except.bind_eq_ok] at hv
    obtain ⟨-, -, a, -, hv⟩ := hv
    exact iff_of_true (agrees_i64.mpr (py.toPyInt_isInt hv)) trivial
  | toFloat ha =>
    simp only [PyFloats.eval, Except.bind_eq_ok] at hv
    obtain ⟨-, -, a, -, hv⟩ := hv
    exact iff_of_true (agrees_f64.mpr (py.toPyFloat_isFloat hv)) trivial

theorem Accepts.part {c : PyExpr F} (h : Accepts w e ir d) (hc : c ∈ py.parts fr e) :
    ∃ ir d, Accepts w c ir d := by
  cases h with
  | param | localVar | bool | int | float => simp [PyFloats.parts] at hc
  | unaryOp _ he =>
    obtain rfl := List.mem_singleton.mp hc
    exact ⟨_, _, he⟩
  | binOp _ hl hr _ | compare _ hl hr =>
    simp only [PyFloats.parts, List.mem_cons, List.not_mem_nil, or_false] at hc
    rcases hc with rfl | rfl
    · exact ⟨_, _, hl⟩
    · exact ⟨_, _, hr⟩
  | ifExp ht hy hn =>
    rcases List.mem_cons.mp hc with rfl | hc
    · exact ⟨_, _, ht⟩
    · split at hc
      · obtain rfl := List.mem_singleton.mp hc
        exact ⟨_, _, hy⟩
      · obtain rfl := List.mem_singleton.mp hc
        exact ⟨_, _, hn⟩
      · cases hc
  | math _ ha | toInt ha | toFloat ha =>
    obtain rfl := List.mem_singleton.mp hc
    exact ⟨_, _, ha⟩

theorem PyFloats.sizeOf_part {c : PyExpr F} (hc : c ∈ py.parts fr e) : sizeOf c < sizeOf e := by
  unfold PyFloats.parts at hc
  split at hc
  · obtain rfl := List.mem_singleton.mp hc
    simp
  · simp only [List.mem_cons, List.not_mem_nil, or_false] at hc
    rcases hc with rfl | rfl
    · simp
      omega
    · simp
  · simp only [List.mem_cons, List.not_mem_nil, or_false] at hc
    rcases hc with rfl | rfl
    · simp
      omega
    · simp
      omega
  · rcases List.mem_cons.mp hc with rfl | hc
    · simp
      omega
    · split at hc
      · obtain rfl := List.mem_singleton.mp hc
        simp
        omega
      · obtain rfl := List.mem_singleton.mp hc
        simp
      · cases hc
  · obtain rfl := List.mem_singleton.mp hc
    simp
    omega
  · cases hc

theorem PyFloats.Evaluates.snoc {p c : PyExpr F} (h : py.Evaluates fr e p) (hc : c ∈ py.parts fr p) :
    py.Evaluates fr e c := by
  induction h with
  | self e => exact .part hc (.self c)
  | part hmem _ ih => exact .part hmem (ih hc)

theorem Accepts.evaluates {p : PyExpr F} (h : Accepts w e ir d) (hp : py.Evaluates fr e p) :
    ∃ ir d, Accepts w p ir d := by
  induction hp generalizing ir d with
  | self e => exact ⟨ir, d, h⟩
  | part hc _ ih =>
    obtain ⟨ir', d', hc'⟩ := h.part hc
    exact ih hc'

/-- **Python's types.** Where no evaluated node divides two integers by `/`, the dtypes of an
expression and of all its evaluated parts are the types of their values exactly when every
evaluated node keeps its type. -/
theorem tags_right_iff (h : w.expr e = .ok (ir, d)) (htyped : TypedFrame w fr)
    (hdiv : ∀ p, py.Evaluates fr e p → py.NoIntDiv fr p) :
    (∀ p, py.Evaluates fr e p → py.TagRight w fr p) ↔
      ∀ p v, py.Evaluates fr e p → py.eval fr p = .ok v → py.KeepsType w fr v p := by
  have hacc := Walker.accepts h
  constructor
  · intro hright p v hp hv
    obtain ⟨ir', d', hacc'⟩ := hacc.evaluates hp
    exact (hacc'.agrees_iff htyped (hdiv p hp) (fun c hc => hright c (hp.snoc hc)) hv).mp
      (hacc'.tagRight_iff.mp (hright p hp) v hv)
  · intro hkeeps p hp
    induction hn : sizeOf p using Nat.strong_induction_on generalizing p with
    | _ n ih =>
      obtain ⟨ir', d', hacc'⟩ := hacc.evaluates hp
      rw [hacc'.tagRight_iff]
      intro v hv
      refine (hacc'.agrees_iff htyped (hdiv p hp) (fun c hc => ?_) hv).mpr (hkeeps p v hp hv)
      exact ih _ (hn ▸ py.sizeOf_part hc) c (hp.snoc hc) rfl

end Tags

/-! ## Two functions of an integer -/

theorem typedFrame_int (node : FnNode F) (n : ℤ) :
    TypedFrame (.init "x" .i64) (node.frame "x" (.int n)) := by
  intro name d v htag hv
  by_cases hname : name = "x"
  · simp only [Walker.tag?, Walker.init, hname, FnNode.frame, if_true, Option.some.injEq] at htag hv
    subst htag hv
    exact agrees_i64.mpr rfl
  · simp [FnNode.frame, hname] at hv

def twiceBody : PyExpr (BitVec 64) := .binOp (.name "x") .mult (.constant (.int 2))

/-- The parts of an operation on a name and a literal. -/
theorem PyFloats.evaluates_binOp_atoms {py : PyFloats F} {fr : PyFrame F} {p : PyExpr F}
    {id : String} {op : PyBinOp} {n : ℤ}
    (h : py.Evaluates fr (.binOp (.name id) op (.constant (.int n))) p) :
    p = .binOp (.name id) op (.constant (.int n)) ∨ p = .name id ∨ p = .constant (.int n) := by
  cases h with
  | self => exact .inl rfl
  | part hc hp =>
    simp only [PyFloats.parts, List.mem_cons, List.not_mem_nil, or_false] at hc
    rcases hc with rfl | rfl
    · cases hp with
      | self => exact .inr (.inl rfl)
      | part hc _ => cases hc
    · cases hp with
      | self => exact .inr (.inr rfl)
      | part hc _ => cases hc

theorem tags_right_twice :
    hostPython.call 0 (.lambda ["x"] twiceBody) (.int 3) = some (.ok (some (.int 6))) ∧
    ∀ p, hostPython.Evaluates ((FnNode.lambda ["x"] twiceBody).frame "x" (.int 3)) twiceBody p →
      hostPython.TagRight (.init "x" .i64)
        ((FnNode.lambda ["x"] twiceBody).frame "x" (.int 3)) p := by
  have hwalk : (Walker.init "x" .i64).expr twiceBody = .ok (.binOp .mul .param (.constI64 2), .i64) :=
    rfl
  refine ⟨rfl, (tags_right_iff hwalk (typedFrame_int _ 3) ?_).mpr ?_⟩
  · intro p hp
    rcases PyFloats.evaluates_binOp_atoms hp with rfl | rfl | rfl <;> trivial
  · intro p v hp _
    rcases PyFloats.evaluates_binOp_atoms hp with rfl | rfl | rfl <;> trivial

/-- `lambda x: x if x > 0 else 0.5` -/
def clampSource : FnNode (BitVec 64) :=
  .lambda ["x"] (.ifExp (.compare (.name "x") [.gt] [.constant (.int 0)]) (.name "x")
    (.constant (.float 0x3FE0000000000000)))

/-- It compiles for `i64` with the output `f64`, and Python's result for 1 is an integer. -/
theorem clamp_tag_wrong : (∃ k g, tryCompile hostFloatBits (some clampSource) .i64 = .compiled k g ∧
      k.outputDtype = .f64) ∧ hostPython.call 0 clampSource (.int 1) = some (.ok (some (.int 1))) ∧
    ∀ body, clampSource = .lambda ["x"] body →
      ¬ hostPython.TagRight (.init "x" .i64) (clampSource.frame "x" (.int 1)) body := by
  refine ⟨?_, by decide +kernel, ?_⟩
  · obtain ⟨k, g, hc⟩ := CompileResult.exists_compiled
      (show (tryCompile hostFloatBits (some clampSource) .i64).accepted = true by decide +kernel)
    obtain ⟨⟨node, hnode, hwalk⟩, -⟩ := tryCompile_eq_compiled hc
    cases hnode
    cases hwalk
    exact ⟨_, g, hc, rfl⟩
  · intro body hbody h
    cases hbody
    have := h _ .f64 (.int 1) rfl (by decide +kernel)
    simp [Agrees, PyVal.isFloat] at this

end Gilmap
