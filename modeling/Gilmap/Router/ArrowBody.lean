import Mathlib.Data.Int.Bitwise
import Mathlib.Data.Rat.Cast.Order
import Gilmap.Library.Word
import Gilmap.Python.Semantics
import Gilmap.Router.ArrowKernel

/-! # Integer bodies

Bodies of integer arithmetic, bit operations, comparisons and ternaries, evaluated on an
element by Python, in integers and floats, and in 64-bit words with rounded quotients.
-/
namespace Gilmap
open Library
variable {F : Type}

/-! ## Python's values -/

/-- Integers and booleans. -/
def PyVal.asInt : PyVal F → Option ℤ
  | .int n => some n
  | .bool b => some b.toInt
  | .float _ | .complex => none

/-- The number, where floats are rationals. -/
def PyVal.rat : PyVal ℚ → ℚ
  | .int n => n
  | .bool b => b.toInt
  | .float x => x
  | .complex => 0

/-- Operators that give an integer for integers. -/
def PyBinOp.onInts : PyBinOp → Option (ℤ → ℤ → ℤ)
  | .add => some (· + ·)
  | .sub => some (· - ·)
  | .mult => some (· * ·)
  | .bitAnd => some Int.land
  | .bitOr => some Int.lor
  | .bitXor => some Int.xor
  | .div | .floorDiv | .mod | .pow | .matMult | .lShift | .rShift => none

def PyCmpOp.onRats : PyCmpOp → ℚ → ℚ → Bool
  | .lt, a, b => a < b
  | .ltE, a, b => a ≤ b
  | .gt, a, b => b < a
  | .gtE, a, b => b ≤ a
  | .eq, a, b => a = b
  | .notEq, a, b => a ≠ b
  | .is, _, _ | .isNot, _, _ | .isIn, _, _ | .notIn, _, _ => false

def bodyUnary (op : PyUnaryOp) (v : PyVal ℚ) : Except PyExc (PyVal ℚ) :=
  match op, v.asInt with
  | .uSub, some n => .ok (.int (-n))
  | .uSub, none => .ok (.float (-v.rat))
  | .uAdd, some n => .ok (.int n)
  | .uAdd, none => .ok (.float v.rat)
  | .invert, some n => .ok (.int (-(n + 1)))
  | .invert, none => .error .typeError
  | .not, _ => .error .unmodelled

/-- An operation that takes floats as well. -/
def arithOp (f : ℤ → ℤ → ℤ) (g : ℚ → ℚ → ℚ) (l r : PyVal ℚ) : PyVal ℚ :=
  match l.asInt, r.asInt with
  | some m, some n => .int (f m n)
  | _, _ => .float (g l.rat r.rat)

/-- A bit operation, which keeps booleans. -/
def bitOp (f : ℤ → ℤ → ℤ) (l r : PyVal ℚ) : Except PyExc (PyVal ℚ) :=
  match l, r with
  | .bool a, .bool b => .ok (.bool (f a.toInt b.toInt ≠ 0))
  | _, _ =>
    match l.asInt, r.asInt with
    | some m, some n => .ok (.int (f m n))
    | _, _ => .error .typeError

def bodyBinOp (op : PyBinOp) (l r : PyVal ℚ) : Except PyExc (PyVal ℚ) :=
  match op with
  | .add => .ok (arithOp (· + ·) (· + ·) l r)
  | .sub => .ok (arithOp (· - ·) (· - ·) l r)
  | .mult => .ok (arithOp (· * ·) (· * ·) l r)
  | .div => if r.rat = 0 then .error .zeroDivisionError else .ok (.float (l.rat / r.rat))
  | .bitAnd => bitOp Int.land l r
  | .bitOr => bitOp Int.lor l r
  | .bitXor => bitOp Int.xor l r
  | .floorDiv | .mod | .pow | .matMult | .lShift | .rShift => .error .unmodelled

/-- Python's evaluation of a body on the element `x`. -/
def PyExpr.valueAt (param : String) (x : ℤ) : PyExpr F → Except PyExc (PyVal ℚ)
  | .name id => if id = param then .ok (.int x) else .error .unmodelled
  | .constant (.bool value) => .ok (.bool value)
  | .constant (.int value) => .ok (.int value)
  | .unaryOp op operand => do bodyUnary op (← operand.valueAt param x)
  | .binOp left op right => do bodyBinOp op (← left.valueAt param x) (← right.valueAt param x)
  | .compare left [op] [right] => do
    .ok (.bool (op.onRats (← left.valueAt param x).rat (← right.valueAt param x).rat))
  | .ifExp test body orelse => do
    if (← test.valueAt param x).rat ≠ 0 then body.valueAt param x else orelse.valueAt param x
  | _ => .error .unmodelled

/-- The operands of a node that Python evaluates on the element. -/
def PyExpr.partsAt (param : String) (x : ℤ) : PyExpr F → List (PyExpr F)
  | .unaryOp _ operand => [operand]
  | .binOp left _ right => [left, right]
  | .compare left [_] [right] => [left, right]
  | .ifExp test body orelse =>
    test :: match test.valueAt param x with
      | .ok v => if v.rat ≠ 0 then [body] else [orelse]
      | .error _ => []
  | _ => []

/-- Evaluating an expression on the element evaluates the part. -/
inductive EvaluatesAt (param : String) (x : ℤ) : PyExpr F → PyExpr F → Prop
  | self (e : PyExpr F) : EvaluatesAt param x e e
  | part {e c p : PyExpr F} : c ∈ e.partsAt param x → EvaluatesAt param x c p →
      EvaluatesAt param x e p

theorem EvaluatesAt.trans {param : String} {x : ℤ} {e p q : PyExpr F} (h : EvaluatesAt param x e p)
    (hq : EvaluatesAt param x p q) : EvaluatesAt param x e q := by
  induction h with
  | self => exact hq
  | part hc _ ih => exact .part hc (ih hq)

/-- The floats: 53 bits and an exponent. -/
def Representable (q : ℚ) : Prop :=
  ∃ m e : ℤ, m.natAbs < 2 ^ 53 ∧ -1074 ≤ e ∧ e ≤ 971 ∧ q = m * 2 ^ e

/-- Integers are inside the `i64` range and floats exact. -/
def PyVal.InLane : PyVal ℚ → Prop
  | .int n => Fits 64 n
  | .bool _ => True
  | .float q => Representable q
  | .complex => False

/-- The number is an integer inside the `i64` range. -/
def PyVal.IsWord (v : PyVal ℚ) : Prop := ∃ n : ℤ, Fits 64 n ∧ v.rat = n

/-- The integers that arithmetic with a float converts on the element. -/
def PyExpr.convertedAt (param : String) (x : ℤ) : PyExpr F → List ℤ
  | .binOp left op right =>
    if op ∈ [.add, .sub, .mult, .div] then
      match left.valueAt param x, right.valueAt param x with
      | .ok (.float _), .ok v | .ok v, .ok (.float _) => v.asInt.toList
      | _, _ => []
    else []
  | _ => []

/-- Python's evaluation succeeds, with integers inside the `i64` range and exact floats. -/
def InLaneAt (param : String) (x : ℤ) (e : PyExpr F) : Prop :=
  ∀ p, EvaluatesAt param x e p → (∃ v, p.valueAt param x = .ok v ∧ v.InLane) ∧
    ∀ n ∈ p.convertedAt param x, Representable n

/-- Every value that Python computes is an integer of the lane. -/
def Plain (param : String) (x : ℤ) (e : PyExpr F) : Prop :=
  ∀ p, EvaluatesAt param x e p → ∃ v, p.valueAt param x = .ok v ∧ v.IsWord

/-! ## The bodies -/

/-- The parameter, integers and booleans, `+ - * / & | ^`, unary `- + ~`, single comparisons
and ternaries. -/
def PyExpr.isIntBody (param : String) : PyExpr F → Bool
  | .name id => id = param
  | .constant (.bool _) | .constant (.int _) => true
  | .unaryOp op operand => arrowUnaryOp op && operand.isIntBody param
  | .binOp left op right =>
    (op = .div || op.onInts.isSome) && left.isIntBody param && right.isIntBody param
  | .compare left [op] [right] => arrowCmpOp op && left.isIntBody param && right.isIntBody param
  | .ifExp test body orelse =>
    test.isIntBody param && body.isIntBody param && orelse.isIntBody param
  | _ => false

def PyExpr.mentions (param : String) : PyExpr F → Bool
  | .name id => id = param
  | .unaryOp _ operand => operand.mentions param
  | .binOp left _ right => left.mentions param || right.mentions param
  | .compare left [_] [right] => left.mentions param || right.mentions param
  | .ifExp test body orelse => test.mentions param || body.mentions param || orelse.mentions param
  | _ => false

/-- The type that the kernels give the expression, where they have one for it. -/
def PyExpr.paTy : PyExpr F → Option PaTy
  | .name _ => some .int64
  | .constant (.bool _) => some .bool
  | .constant (.int _) => some .int64
  | .unaryOp op operand =>
    if op = .uAdd ∨ operand.paTy = some .int64 then operand.paTy else none
  | .binOp left _ right =>
    if left.paTy = some .int64 ∧ right.paTy = some .int64 then some .int64 else none
  | .compare left [_] [right] =>
    if left.paTy = right.paTy ∧ left.paTy.isSome then some .bool else none
  | .ifExp test body orelse =>
    if test.paTy = some .bool ∧ body.paTy = orelse.paTy then body.paTy else none
  | _ => none

/-- The operands of the divisions, in all arms. -/
def PyExpr.quotients : PyExpr F → List (PyExpr F × PyExpr F)
  | .unaryOp _ operand => operand.quotients
  | .binOp left op right =>
    (if op = .div then [(left, right)] else []) ++ (left.quotients ++ right.quotients)
  | .compare left [_] [right] => left.quotients ++ right.quotients
  | .ifExp test body orelse => test.quotients ++ (body.quotients ++ orelse.quotients)
  | _ => []

def PyExpr.intConstants : PyExpr F → List ℤ
  | .constant (.int n) => [n]
  | .unaryOp _ operand => operand.intConstants
  | .binOp left _ right => left.intConstants ++ right.intConstants
  | .compare left [_] [right] => left.intConstants ++ right.intConstants
  | .ifExp test body orelse => test.intConstants ++ (body.intConstants ++ orelse.intConstants)
  | _ => []

/-- The constant that the body is, under signs that do nothing. -/
def PyExpr.bare : PyExpr F → Option ℤ
  | .constant (.int n) => some n
  | .unaryOp .uAdd operand => operand.bare
  | _ => none

/-- The integers that a kernel is given. -/
def PyExpr.passed (e : PyExpr F) : List ℤ := if e.bare.isSome then [] else e.intConstants

/-! ## Words -/

def wordUnary (op : PyUnaryOp) (n : ℤ) : ℤ :=
  match op with
  | .uSub => (-n).bmod (2 ^ 64)
  | .invert => -(n + 1)
  | .uAdd | .not => n

/-- Rounds towards zero. The quotient of the least word and `-1` does not fit; `overflow` stands
for it. -/
def divWord (overflow m n : ℤ) : ℤ := if m = -2 ^ 63 ∧ n = -1 then overflow else m.tdiv n

/-- Wraps around; the other operators are the division. -/
def wordBinOp (overflow : ℤ) (op : PyBinOp) (m n : ℤ) : ℤ :=
  (match op.onInts with
    | some f => f m n
    | none => divWord overflow m n).bmod (2 ^ 64)

/-- The body on the element in 64-bit words. -/
def PyExpr.wordAt (overflow x : ℤ) : PyExpr F → ℤ
  | .constant (.int n) => n
  | .constant (.bool b) => b.toInt
  | .unaryOp op operand => wordUnary op (operand.wordAt overflow x)
  | .binOp left op right => wordBinOp overflow op (left.wordAt overflow x) (right.wordAt overflow x)
  | .compare left [op] [right] =>
    (op.onRats (left.wordAt overflow x) (right.wordAt overflow x)).toInt
  | .ifExp test body orelse =>
    if test.wordAt overflow x ≠ 0 then body.wordAt overflow x else orelse.wordAt overflow x
  | _ => x

/-! ## Operations on numbers -/

section Numbers
variable {l r u v : PyVal ℚ} {m n k o : ℤ}

theorem PyVal.rat_of_asInt (h : v.asInt = some n) : v.rat = n := by
  cases v <;> cases h <;> rfl

theorem PyVal.eq_of_asInt (h : v.asInt = some n) (hm : v.rat = m) : n = m := by
  rw [rat_of_asInt h] at hm
  exact_mod_cast hm

theorem bodyUnary_rat {op : PyUnaryOp} (hop : op = .uSub ∨ op = .invert) (hu : u.rat = m)
    (hv : bodyUnary op u = .ok v) : v.rat = ((if op = .uSub then -m else -(m + 1) : ℤ) : ℚ) := by
  rcases hop with rfl | rfl <;> simp only [bodyUnary] at hv <;> cases hn : u.asInt <;>
    rw [hn] at hv <;> cases hv
  · rw [PyVal.rat, hu]
    push_cast
    rfl
  · obtain rfl := PyVal.eq_of_asInt hn hu
    rfl
  · obtain rfl := PyVal.eq_of_asInt hn hu
    rfl

theorem bodyUnary_plus (hv : bodyUnary .uAdd u = .ok v) : v.rat = u.rat := by
  simp only [bodyUnary] at hv
  cases hn : u.asInt with
  | none =>
    rw [hn] at hv
    cases hv
    rfl
  | some n =>
    rw [hn] at hv
    cases hv
    exact (PyVal.rat_of_asInt hn).symm

theorem arithOp_rat {f : ℤ → ℤ → ℤ} {g : ℚ → ℚ → ℚ} (hfg : g m n = (f m n : ℤ)) (hl : l.rat = m)
    (hr : r.rat = n) : (arithOp f g l r).rat = (f m n : ℤ) := by
  unfold arithOp
  split
  · next hm hn => rw [← PyVal.eq_of_asInt hm hl, ← PyVal.eq_of_asInt hn hr, PyVal.rat]
  · rw [PyVal.rat, hl, hr, hfg]

theorem bitOp_rat {f : ℤ → ℤ → ℤ} (hf : ∀ a b : Bool, (f a.toInt b.toInt ≠ 0 : Bool).toInt = f a.toInt b.toInt)
    (hl : l.rat = m) (hr : r.rat = n) (hv : bitOp f l r = .ok v) : v.rat = (f m n : ℤ) := by
  unfold bitOp at hv
  split at hv
  · next a b =>
    cases hv
    rw [← PyVal.eq_of_asInt rfl hl, ← PyVal.eq_of_asInt rfl hr, PyVal.rat, hf]
  · split at hv
    · next hm hn =>
      cases hv
      rw [← PyVal.eq_of_asInt hm hl, ← PyVal.eq_of_asInt hn hr, PyVal.rat]
    · cases hv

/-- Where the operands are integers as numbers, so is the result, whatever their types. -/
theorem bodyBinOp_rat {op : PyBinOp} {f : ℤ → ℤ → ℤ} (hf : op.onInts = some f) (hl : l.rat = m)
    (hr : r.rat = n) (hv : bodyBinOp op l r = .ok v) : v.rat = (f m n : ℤ) := by
  cases op with
  | add | sub | mult =>
    cases hf
    cases hv
    exact arithOp_rat (by push_cast; rfl) hl hr
  | bitAnd | bitOr | bitXor =>
    cases hf
    exact bitOp_rat (by decide) hl hr hv
  | div | floorDiv | mod | pow | matMult | lShift | rShift => cases hf

/-- A quotient of integers that is one is the rounded quotient. -/
theorem bodyDiv_rat (hl : l.rat = m) (hr : r.rat = n) (hv : bodyBinOp .div l r = .ok v) {q : ℤ}
    (hq : v.rat = q) : n ≠ 0 ∧ m.tdiv n = q := by
  simp only [bodyBinOp] at hv
  split at hv
  · cases hv
  · next hzero =>
    cases hv
    rw [hr] at hzero
    have hn : n ≠ 0 := by exact_mod_cast hzero
    refine ⟨hn, ?_⟩
    have hq : (m : ℚ) / n = q := by rw [← hl, ← hr]; exact hq
    have hmul : m = n * q := by
      rw [div_eq_iff hzero] at hq
      have : (m : ℚ) = ((n * q : ℤ) : ℚ) := by
        push_cast
        rw [hq, mul_comm]
      exact_mod_cast this
    rw [hmul, Int.mul_tdiv_cancel_left q hn]

/-- In range the words are the numbers. -/
theorem bodyUnary_word {op : PyUnaryOp} (hop : arrowUnaryOp op = true) (hu : u.rat = m)
    (hv : bodyUnary op u = .ok v) (hn : Fits 64 n) (hvn : v.rat = n) : n = wordUnary op m := by
  have hrat : op ≠ .uAdd → n = if op = .uSub then -m else -(m + 1) := fun hop' => by
    have h := bodyUnary_rat (by cases op <;> simp_all [arrowUnaryOp]) hu hv
    rw [hvn] at h
    exact_mod_cast h
  cases op with
  | uSub =>
    have h := hrat (by decide)
    rw [if_pos rfl] at h
    rw [wordUnary, ← h, hn.bmod_eq (by decide)]
  | invert =>
    have h := hrat (by decide)
    rw [if_neg (by decide)] at h
    exact h
  | uAdd =>
    rw [bodyUnary_plus hv, hu] at hvn
    exact_mod_cast hvn.symm
  | not => cases hop

theorem bodyBinOp_word {op : PyBinOp} (hop : (op = .div || op.onInts.isSome) = true) (hl : l.rat = m)
    (hr : r.rat = k) (hv : bodyBinOp op l r = .ok v) (hn : Fits 64 n) (hvn : v.rat = n) :
    n = wordBinOp o op m k := by
  unfold wordBinOp
  cases hf : op.onInts with
  | some f =>
    have h := bodyBinOp_rat hf hl hr hv
    rw [hvn] at h
    have h : n = f m k := by exact_mod_cast h
    simp only
    rw [← h, hn.bmod_eq (by decide)]
  | none =>
    obtain rfl : op = .div := by simpa [hf] using hop
    obtain ⟨-, hquot⟩ := bodyDiv_rat hl hr hv hvn
    have hleast : ¬ (m = -2 ^ 63 ∧ k = -1) := by
      rintro ⟨rfl, rfl⟩
      rw [← hquot] at hn
      exact absurd hn (by decide)
    simp only
    rw [divWord, if_neg hleast, hquot, hn.bmod_eq (by decide)]

end Numbers

/-! ## Plain evaluations -/

section Plain
variable {param : String} {x o : ℤ} {e : PyExpr F}

theorem Plain.operand {c : PyExpr F} (h : Plain param x e) (hc : c ∈ e.partsAt param x) :
    Plain param x c := fun p hp => h p (.part hc hp)

theorem Plain.value (h : Plain param x e) : ∃ v, e.valueAt param x = .ok v ∧ v.IsWord := h e (.self e)

theorem Plain.of_evaluates {p : PyExpr F} (h : Plain param x e) (hp : EvaluatesAt param x e p) :
    Plain param x p := fun q hq => h q (hp.trans hq)

/-- Where every value that Python computes is an integer of the lane, the words are these
values. -/
theorem Plain.wordAt {e : PyExpr F} (h : e.isIntBody param = true) (hplain : Plain param x e) :
    ∃ v, e.valueAt param x = .ok v ∧ v.rat = e.wordAt o x := by
  fun_induction PyExpr.isIntBody param e with
  | case1 id =>
    have hid : id = param := by simpa using h
    exact ⟨.int x, by simp [PyExpr.valueAt, hid], rfl⟩
  | case2 b => exact ⟨.bool b, rfl, rfl⟩
  | case3 n => exact ⟨.int n, rfl, rfl⟩
  | case4 op operand ih =>
    simp only [Bool.and_eq_true] at h
    obtain ⟨u, hu, hrat⟩ := ih h.2 (hplain.operand (by simp [PyExpr.partsAt]))
    obtain ⟨v, hv, n, hn, hvn⟩ := hplain.value
    refine ⟨v, hv, ?_⟩
    simp only [PyExpr.valueAt, hu, bind, Except.bind] at hv
    rw [PyExpr.wordAt, ← bodyUnary_word h.1 hrat hv hn hvn, hvn]
  | case5 left op right ihl ihr =>
    simp only [Bool.and_eq_true] at h
    obtain ⟨u, hu, hl⟩ := ihl h.1.2 (hplain.operand (by simp [PyExpr.partsAt]))
    obtain ⟨w, hw, hr⟩ := ihr h.2 (hplain.operand (by simp [PyExpr.partsAt]))
    obtain ⟨v, hv, n, hn, hvn⟩ := hplain.value
    refine ⟨v, hv, ?_⟩
    simp only [PyExpr.valueAt, hu, hw, bind, Except.bind] at hv
    rw [PyExpr.wordAt, ← bodyBinOp_word h.1.1 hl hr hv hn hvn, hvn]
  | case6 left op right ihl ihr =>
    simp only [Bool.and_eq_true] at h
    obtain ⟨u, hu, hl⟩ := ihl h.1.2 (hplain.operand (by simp [PyExpr.partsAt]))
    obtain ⟨w, hw, hr⟩ := ihr h.2 (hplain.operand (by simp [PyExpr.partsAt]))
    refine ⟨.bool (op.onRats u.rat w.rat), by simp [PyExpr.valueAt, hu, hw, bind, Except.bind], ?_⟩
    rw [PyVal.rat, PyExpr.wordAt, hl, hr]
  | case7 test body orelse iht ihy ihn =>
    simp only [Bool.and_eq_true] at h
    obtain ⟨u, hu, hrat⟩ := iht h.1.1 (hplain.operand (by simp [PyExpr.partsAt]))
    have harm : (if u.rat ≠ 0 then body else orelse) ∈ (PyExpr.ifExp test body orelse).partsAt param x := by
      simp only [PyExpr.partsAt, hu]
      split <;> simp
    have hvalue : (PyExpr.ifExp test body orelse).valueAt param x =
        (if u.rat ≠ 0 then body else orelse).valueAt param x := by
      simp only [PyExpr.valueAt, hu, bind, Except.bind]
      split <;> rfl
    rw [hvalue, PyExpr.wordAt]
    by_cases hzero : test.wordAt o x ≠ 0
    · rw [if_pos (by rw [hrat]; exact_mod_cast hzero)] at harm ⊢
      rw [if_pos hzero]
      exact ihy h.1.2 (hplain.operand harm)
    · rw [if_neg (by rw [hrat]; exact_mod_cast hzero)] at harm ⊢
      rw [if_neg hzero]
      exact ihn h.2 (hplain.operand harm)
  | case8 => cases h

end Plain

end Gilmap
