import Gilmap.Ir.Semantics
import Gilmap.Library.Word
import Gilmap.Python.Types
import Gilmap.Python.WalkerSpec

/-! # Expressions that compiled code can follow

Python's evaluation of an expression beside the instruction that the code has for each node.
An expression is safe where the instructions give Python's numbers, calm where the code has
some value of it, and it fails where the code traps on it: both arms of a ternary are
evaluated, and a test is looked at as an integer. The frames say what is known of the names:
the code reads the argument wherever the parameter is named, and may have another idea of a
local.
-/
namespace Gilmap
open Library
variable {F : Type}

/-! ## The shape of an expression -/

/-- The node is one instruction on the values of its operands. -/
def PyExpr.isNode : PyExpr F → Bool
  | .name _ | .ifExp _ _ _ => false
  | _ => true

/-- The operands of a node. -/
def PyExpr.operands : PyExpr F → List (PyExpr F)
  | .unaryOp _ operand => [operand]
  | .binOp left _ right => [left, right]
  | .compare left [_] [right] => [left, right]
  | .call _ [arg] [] => [arg]
  | _ => []

/-- The value is made of comparisons only, whose results have 8 bits in the code. -/
def PyExpr.isFlag : PyExpr F → Bool
  | .compare _ _ _ => true
  | .unaryOp _ operand => operand.isFlag
  | .binOp left _ right => left.isFlag && right.isFlag
  | .ifExp _ body orelse => body.isFlag && orelse.isFlag
  | .call (.name "int") [arg] [] => arg.isFlag
  | _ => false

/-- The operators that are instructions which can trap, where they work on integers. -/
def PyBinOp.isQuotient (op : PyBinOp) : Bool := op = .div || op = .floorDiv || op = .mod

namespace Walker
variable (w : Walker)

/-- The dtype at which an operand is lowered on its own. -/
def ownDtype (e : PyExpr F) : Dtype := (w.tag e).getD .i64

/-- The type of the value that the code has for the expression. -/
def slotTy (e : PyExpr F) : ClTy := if e.isFlag then .i8 else clType (w.ownDtype e)

/-- The dtype at which an operand is lowered when its node is lowered at `t`. -/
def operandDtype (t : Dtype) (e : PyExpr F) : Dtype := if t = .i64 then .i64 else w.ownDtype e

end Walker

/-- The division of words gives a word. -/
def PyBinOp.truncate (op : PyBinOp) (t : Dtype) : PyBinOp :=
  if t = .i64 ∧ op = .div then .floorDiv else op

/-- The expression with `int()` around the floats that the code converts when it is lowered
at the dtype. -/
def Walker.truncate (w : Walker) : PyExpr F → Dtype → PyExpr F
  | .name id, t =>
    if t = .i64 ∧ w.tag (F := F) (.name id) = some .f64 then .call (.name "int") [.name id] []
    else .name id
  | .constant (.float x), .i64 => .call (.name "int") [.constant (.float x)] []
  | .unaryOp op operand, t => .unaryOp op (w.truncate operand t)
  | .binOp left op right, t =>
    .binOp (w.truncate left (w.operandDtype t left)) (op.truncate t)
      (w.truncate right (w.operandDtype t right))
  | .compare left [op] [right], _ =>
    .compare (w.truncate left (w.ownDtype left)) [op] [w.truncate right (w.ownDtype right)]
  | .ifExp test body orelse, t =>
    .ifExp (w.truncate test .i64) (w.truncate body (w.operandDtype t body))
      (w.truncate orelse (w.operandDtype t orelse))
  | .call (.name "float") [arg] [], t =>
    if t = .i64 then w.truncate arg .i64
    else .call (.name "float") [w.truncate arg (w.ownDtype arg)] []
  | .call func [arg] [], _ => .call func [w.truncate arg (w.ownDtype arg)] []
  | e, _ => e

/-! ## The instruction of a node -/

section Instructions
variable (fl : FloatOps F)

/-- The instruction of a call, on an argument of the dtype. -/
def callInstr (d : Dtype) (x : Val F) : PyExpr F → Except Fault (Val F)
  | .name "int" => coerceVal fl x d .i64
  | .name "float" => coerceVal fl x d .f64
  | .attribute (.name "math") attr =>
    match mathMap.lookup attr with
    | some fn => do (← coerceVal fl x d .f64).callLibm fl fn.libm
    | none => .error .illTyped
  | _ => .error .illTyped

/-- The instruction of a node, on values of its operands. -/
def Walker.instr (w : Walker) : PyExpr F → List (Val F) → Except Fault (Val F)
  | .constant (.bool value), [] => .ok (.i64 (if value then 1 else 0))
  | .constant (.int value), [] => .ok (.i64 (BitVec.ofInt 64 value))
  | .constant (.float value), [] => .ok (.f64 value)
  | .unaryOp op operand, [x] =>
    match unaryMap op with
    | some irOp => evalUnary fl irOp x (w.ownDtype operand)
    | none => .error .illTyped
  | .binOp left op right, [x, y] =>
    match binOpMap op with
    | some irOp => do
      let d := (w.ownDtype left).join (w.ownDtype right)
      evalBinOp fl irOp (← coerceVal fl x (w.ownDtype left) d) (← coerceVal fl y (w.ownDtype right) d) d
    | none => .error .illTyped
  | .compare left [op] [right], [x, y] =>
    match cmpMap op with
    | some irOp => do
      let d := (w.ownDtype left).join (w.ownDtype right)
      evalCmpOp fl irOp (← coerceVal fl x (w.ownDtype left) d) (← coerceVal fl y (w.ownDtype right) d) d
    | none => .error .illTyped
  | .call func [arg] [], [x] => callInstr fl (w.ownDtype arg) x func
  | _, _ => .error .illTyped

/-- The instruction does not trap, whatever the operands are: it is no division of words and
no conversion of a float to one. -/
def Walker.isTotal (w : Walker) : PyExpr F → Bool
  | .binOp left op right => (w.ownDtype left).join (w.ownDtype right) = .f64 || !op.isQuotient
  | .call (.name "int") [arg] [] => w.ownDtype arg = .i64
  | _ => true

end Instructions

/-! ## Numbers -/

namespace PyFloats
variable (py : PyFloats F)

/-- The value is equal to the integer. -/
def IsInt (v : PyVal F) (n : ℤ) : Prop :=
  v.num = .ok (.int n) ∨ ∃ x, v = .float x ∧ py.cmpInt .eq n x = true

/-- The machine value, of an expression of the dtype, is Python's number: equal to it, and
the same float where both are floats. -/
inductive Stands (py : PyFloats F) : Dtype → PyVal F → Val F → Prop
  | word {v : PyVal F} {n : ℤ} {b : BitVec 64} : py.IsInt v n → b.toInt = n → Stands py .i64 v (.i64 b)
  | flag {v : PyVal F} {n : ℤ} {b : BitVec 8} : py.IsInt v n → b.toInt = n → Stands py .i64 v (.i8 b)
  | float (x : F) : Stands py .f64 (.float x) (.f64 x)
  | integer {v : PyVal F} {n : ℤ} {x : F} : v.num = .ok (.int n) → py.cmpInt .eq n x = true →
      Stands py .f64 v (.f64 x)

/-- The value of the expression on the machine is the number that Python evaluates it to. -/
structure Holds (w : Walker) (fr : PyFrame F) (e : PyExpr F) (x : Val F) : Prop where
  ty : x.ty = w.slotTy e
  stands : ∃ v, py.eval fr e = .ok v ∧ py.Stands (w.ownDtype e) v x

/-- The instruction of the node follows Python: of Python's operands it makes Python's value. -/
def Follows (w : Walker) (fr : PyFrame F) (e : PyExpr F) (v : PyVal F) : Prop :=
  ∀ xs, List.Forall₂ (py.Holds w fr) e.operands xs →
    ∃ z, w.instr py.fl e xs = .ok z ∧ py.Stands (w.ownDtype e) v z

/-- Python's number is kept when the value of the expression is converted to the dtype. -/
def KeptAt (w : Walker) (fr : PyFrame F) (e : PyExpr F) (d : Dtype) : Prop :=
  ∀ x, py.Holds w fr e x → ∃ v z, py.eval fr e = .ok v ∧ coerceVal py.fl x (w.ownDtype e) d = .ok z ∧
    py.Stands d v z

/-! ## Safe expressions -/

mutual

/-- The code has Python's number for the expression: it follows Python at every node, and in
a ternary the code decides as the test does, and the other arm is calm. -/
inductive Safe (py : PyFloats F) (w : Walker) (fr : PyFrame F) : PyExpr F → Prop
  | name {id : String} {v : PyVal F} : fr.vals id = some v → Safe py w fr (.name id)
  | node {e : PyExpr F} {v : PyVal F} : e.isNode = true → (∀ c ∈ e.operands, Safe py w fr c) →
      py.eval fr e = .ok v → py.Follows w fr e v → Safe py w fr e
  | ifExp {test body orelse : PyExpr F} {t : PyVal F} {b : Bool} : py.eval fr test = .ok t →
      py.truthy t = .ok b → Decides py w fr b (w.truncate test .i64) →
      Safe py w fr (if b then body else orelse) →
      py.KeptAt w fr (if b then body else orelse) ((w.ownDtype body).join (w.ownDtype orelse)) →
      Calm py w fr (if b then orelse else body) → Safe py w fr (.ifExp test body orelse)

/-- What the code has for the expression, which is none of floats, is as true as `b`. -/
inductive Decides (py : PyFloats F) (w : Walker) (fr : PyFrame F) : Bool → PyExpr F → Prop
  | safe {e : PyExpr F} {v : PyVal F} {b : Bool} : Safe py w fr e → py.eval fr e = .ok v →
      (∀ n, py.IsInt v n → b = decide (n ≠ 0)) → Decides py w fr b e
  | node {e : PyExpr F} {b : Bool} : e.isNode = true → (∀ c ∈ e.operands, Safe py w fr c) →
      (∀ xs, List.Forall₂ (py.Holds w fr) e.operands xs →
        ∃ z, w.instr py.fl e xs = .ok z ∧ z.truthy = .ok b) → Decides py w fr b e
  | ifExp {test body orelse : PyExpr F} {b c : Bool} : Decides py w fr c (w.truncate test .i64) →
      Decides py w fr b (if c then body else orelse) → Calm py w fr (if c then orelse else body) →
      Decides py w fr b (.ifExp test body orelse)

/-- The code of the expression does not trap, whatever Python makes of it: an instruction that
could is one on safe operands, or divides by a safe number other than zero and minus one. -/
inductive Calm (py : PyFloats F) (w : Walker) (fr : PyFrame F) : PyExpr F → Prop
  | safe {e : PyExpr F} : Safe py w fr e → Calm py w fr e
  | name {id : String} : Calm py w fr (.name id)
  | total {e : PyExpr F} : e.isNode = true → (∀ c ∈ e.operands, Calm py w fr c) →
      w.isTotal e = true → Calm py w fr e
  | runs {e : PyExpr F} : e.isNode = true → (∀ c ∈ e.operands, Safe py w fr c) →
      (∀ xs, List.Forall₂ (py.Holds w fr) e.operands xs → ∃ z, w.instr py.fl e xs = .ok z) →
      Calm py w fr e
  | quotient {op : PyBinOp} {left right : PyExpr F} {v : PyVal F} : Calm py w fr left →
      Safe py w fr right → py.eval fr right = .ok v →
      (∀ n, py.IsInt v n → n ≠ 0 ∧ (n = -1 → op = .mod)) → Calm py w fr (.binOp left op right)
  | ifExp {test body orelse : PyExpr F} : Calm py w fr (w.truncate test .i64) → Calm py w fr body →
      Calm py w fr orelse → Calm py w fr (.ifExp test body orelse)

end

/-- The code of the expression traps: an instruction that it comes to, in an arm that Python
selects or not, traps on Python's operands, or divides words by zero. -/
inductive Fails (py : PyFloats F) (w : Walker) (fr : PyFrame F) : PyExpr F → Prop
  | operand {e c : PyExpr F} : e.isNode = true → c ∈ e.operands → Fails py w fr c → Fails py w fr e
  | node {e : PyExpr F} : e.isNode = true → (∀ c ∈ e.operands, py.Safe w fr c) →
      (∀ xs, List.Forall₂ (py.Holds w fr) e.operands xs → ∃ f, w.instr py.fl e xs = .error f) →
      Fails py w fr e
  | zero {op : PyBinOp} {left right : PyExpr F} {v : PyVal F} : op.isQuotient = true →
      w.ownDtype left = .i64 → py.Safe w fr right → py.eval fr right = .ok v →
      (∀ n, py.IsInt v n → n = 0) → w.ownDtype right = .i64 → Fails py w fr (.binOp left op right)
  | test {test body orelse : PyExpr F} : Fails py w fr (w.truncate test .i64) →
      Fails py w fr (.ifExp test body orelse)
  | body {test body orelse : PyExpr F} : Fails py w fr body → Fails py w fr (.ifExp test body orelse)
  | orelse {test body orelse : PyExpr F} : Fails py w fr orelse →
      Fails py w fr (.ifExp test body orelse)

end PyFloats

section Safe
variable {py : PyFloats F} {w : Walker} {fr : PyFrame F} {e test body orelse : PyExpr F} {v : PyVal F}
  {m n : ℤ}

/-- The arm that a ternary selects. -/
theorem PyFloats.eval_ifExp {t : PyVal F} {b : Bool} (ht : py.eval fr test = .ok t)
    (hb : py.truthy t = .ok b) :
    py.eval fr (.ifExp test body orelse) = py.eval fr (if b then body else orelse) := by
  cases b <;> simp [PyFloats.eval, ht, hb, bind, Except.bind]

theorem PyFloats.eval_name {id : String} (hv : fr.vals id = some v) : py.eval fr (.name id) = .ok v := by
  simp only [PyFloats.eval, PyFrame.read, hv]

theorem PyFloats.Safe.exists_eval : ∀ {e : PyExpr F}, py.Safe w fr e → ∃ v, py.eval fr e = .ok v
  | _, .name hv => ⟨_, eval_name hv⟩
  | _, .node _ _ hv _ => ⟨_, hv⟩
  | _, .ifExp ht hb _ harm _ _ => harm.exists_eval.imp fun _ hv => (eval_ifExp ht hb).trans hv

/-- An `int` or a `bool` is equal to one integer. -/
theorem PyFloats.IsInt.eq_of_num (h : py.IsInt v n) (hv : v.num = .ok (.int m)) : n = m := by
  rcases h with h | ⟨x, rfl, -⟩
  · rw [hv] at h
    cases h
    rfl
  · cases hv

end Safe

/-! ## Frames -/

/-- What is known of the locals: the argument while the parameter is not bound again, and the
values of the names bound since on which both sides agree. -/
structure SafeFrame (F : Type) where
  param : String
  arg : Option (PyVal F)
  locals : String → Option (PyVal F)

namespace SafeFrame

/-- The frame in which expressions are looked at. To the code `int`, `float` and `math` are
what they are, whatever the locals are called. -/
def view (fr : SafeFrame F) : PyFrame F :=
  ⟨[], fun name => if name = fr.param then fr.arg else fr.locals name⟩

def bind (fr : SafeFrame F) (name : String) (v : PyVal F) : SafeFrame F :=
  { fr with
    arg := if name = fr.param then none else fr.arg
    locals := Function.update fr.locals name (some v) }

/-- The name is bound, to a value on which the two sides may differ. -/
def lose (fr : SafeFrame F) (name : String) : SafeFrame F :=
  { fr with
    arg := if name = fr.param then none else fr.arg
    locals := Function.update fr.locals name none }

def forget (fr : SafeFrame F) (name : String) : SafeFrame F :=
  { fr with locals := Function.update fr.locals name none }

section
variable {fr : SafeFrame F} {name n : String} {v u : PyVal F}

/-- The argument stays known where another name is bound. -/
theorem arg_of_lose (h : (fr.lose name).arg = some u) : fr.param ≠ name ∧ fr.arg = some u := by
  simp only [lose] at h
  split at h
  · cases h
  · rename_i hname
    exact ⟨Ne.symm hname, h⟩

theorem locals_of_forget (h : (fr.forget name).locals n = some u) :
    n ≠ name ∧ fr.locals n = some u := by
  by_cases hn : n = name
  · subst hn
    simp [forget] at h
  · simp only [forget, Function.update_of_ne hn] at h
    exact ⟨hn, h⟩

theorem locals_of_bind (h : (fr.bind name v).locals n = some u) :
    n = name ∧ u = v ∨ (fr.forget name).locals n = some u := by
  by_cases hn : n = name
  · subst hn
    simp only [bind, Function.update_self, Option.some.injEq] at h
    exact .inl ⟨rfl, h.symm⟩
  · right
    simpa only [bind, forget, Function.update_of_ne hn] using h

end

end SafeFrame

/-! ## What Python's frame holds -/

/-- `g` binds what `f` does, to the same values. -/
def PyFrame.Le (f g : PyFrame F) : Prop := ∀ name v, f.vals name = some v → g.vals name = some v

section Agreement
variable {py : PyFloats F} {f g : PyFrame F}

/-- The value of a call for the value `a` of its argument. -/
inductive PyFloats.CallValue (py : PyFloats F) : PyExpr F → PyVal F → PyVal F → Prop
  | math {attr : String} {fn : MathFn} {a v : PyVal F} : mathMap.lookup attr = some fn →
      py.mathCall fn a = .ok v → CallValue py (.attribute (.name "math") attr) a v
  | toInt {a v : PyVal F} : py.toPyInt a = .ok v → CallValue py (.name "int") a v
  | toFloat {a v : PyVal F} : py.toPyFloat a = .ok v → CallValue py (.name "float") a v

theorem PyFloats.eval_call {func : PyExpr F} {args : List (PyExpr F)} {keywords : List String}
    {v : PyVal F} (hv : py.eval f (.call func args keywords) = .ok v) :
    ∃ arg a, args = [arg] ∧ keywords = [] ∧ py.eval f arg = .ok a ∧ py.CallValue func a v := by
  unfold PyFloats.eval at hv
  split at hv
  case h_9 attr arg heq =>
    cases heq
    split at hv
    · cases hv
    · rename_i fn hfn
      simp only [Except.bind_eq_ok] at hv
      obtain ⟨_, -, hv⟩ := hv
      split at hv
      · cases hv
      · simp only [Except.bind_eq_ok] at hv
        obtain ⟨a, ha, hv⟩ := hv
        exact ⟨arg, a, rfl, rfl, ha, .math hfn hv⟩
  case h_10 arg heq =>
    cases heq
    simp only [Except.bind_eq_ok] at hv
    obtain ⟨_, -, a, ha, hv⟩ := hv
    exact ⟨arg, a, rfl, rfl, ha, .toInt hv⟩
  case h_11 arg heq =>
    cases heq
    simp only [Except.bind_eq_ok] at hv
    obtain ⟨_, -, a, ha, hv⟩ := hv
    exact ⟨arg, a, rfl, rfl, ha, .toFloat hv⟩
  case h_12 => cases hv
  all_goals
    rename_i heq
    cases heq

theorem PyFloats.CallValue.unique {func func' : PyExpr F} {a u v : PyVal F} (hfunc : func = func')
    (h : py.CallValue func a u) (h' : py.CallValue func' a v) : u = v := by
  cases h with
  | math hfn hu =>
    cases h' with
    | math hfn' hv =>
      cases hfunc
      rw [hfn] at hfn'
      cases hfn'
      exact Except.ok.inj (hu.symm.trans hv)
    | toInt | toFloat => cases hfunc
  | toInt hu =>
    cases h' with
    | math => cases hfunc
    | toInt hv => exact Except.ok.inj (hu.symm.trans hv)
    | toFloat => simp at hfunc
  | toFloat hu =>
    cases h' with
    | math => cases hfunc
    | toInt => simp at hfunc
    | toFloat hv => exact Except.ok.inj (hu.symm.trans hv)

theorem PyFloats.CallValue.of_int {a v : PyVal F} (h : py.CallValue (.name "int") a v) :
    py.toPyInt a = .ok v := by
  generalize hfunc : PyExpr.name "int" = func at h
  cases h with
  | math => cases hfunc
  | toInt hv => exact hv
  | toFloat => simp at hfunc

/-- Where an expression has a value in both frames it is the same. -/
theorem PyFrame.Le.eval_eq (h : f.Le g) : ∀ {e : PyExpr F} {u v : PyVal F}, py.eval f e = .ok u →
    py.eval g e = .ok v → u = v
  | .name id, u, v, hu, hv => by
    simp only [PyFloats.eval, PyFrame.read] at hu hv
    cases hval : f.vals id with
    | none =>
      rw [hval] at hu
      cases hu
    | some a =>
      rw [hval] at hu
      rw [h id a hval] at hv
      exact Except.ok.inj (hu.symm.trans hv)
  | .constant c, u, v, hu, hv => by
    cases c with
    | bool | int | float => exact Except.ok.inj (hu.symm.trans hv)
    | str | other => cases hu
  | .unaryOp op operand, u, v, hu, hv => by
    simp only [PyFloats.eval] at hu hv
    cases hop : unaryMap op with
    | none =>
      rw [hop] at hu
      cases hu
    | some irOp =>
      simp only [hop, Except.bind_eq_ok] at hu hv
      obtain ⟨a, ha, hu⟩ := hu
      obtain ⟨a', ha', hv⟩ := hv
      obtain rfl := h.eval_eq ha ha'
      exact Except.ok.inj (hu.symm.trans hv)
  | .binOp left op right, u, v, hu, hv => by
    simp only [PyFloats.eval] at hu hv
    cases hop : binOpMap op with
    | none =>
      rw [hop] at hu
      cases hu
    | some irOp =>
      simp only [hop, Except.bind_eq_ok] at hu hv
      obtain ⟨a, ha, b, hb, hu⟩ := hu
      obtain ⟨a', ha', b', hb', hv⟩ := hv
      obtain rfl := h.eval_eq ha ha'
      obtain rfl := h.eval_eq hb hb'
      exact Except.ok.inj (hu.symm.trans hv)
  | .compare left [op] [right], u, v, hu, hv => by
    simp only [PyFloats.eval] at hu hv
    cases hop : cmpMap op with
    | none =>
      rw [hop] at hu
      cases hu
    | some irOp =>
      simp only [hop, Except.bind_eq_ok] at hu hv
      obtain ⟨a, ha, b, hb, c, hc, hu⟩ := hu
      obtain ⟨a', ha', b', hb', c', hc', hv⟩ := hv
      obtain rfl := h.eval_eq ha ha'
      obtain rfl := h.eval_eq hb hb'
      obtain rfl := Except.ok.inj (hc.symm.trans hc')
      exact Except.ok.inj (hu.symm.trans hv)
  | .compare _ [] _, _, _, hu, _ | .compare _ (_ :: _ :: _) _, _, _, hu, _
  | .compare _ [_] [], _, _, hu, _ | .compare _ [_] (_ :: _ :: _), _, _, hu, _ => by
    simp [PyFloats.eval] at hu
  | .ifExp test body orelse, u, v, hu, hv => by
    simp only [PyFloats.eval, Except.bind_eq_ok] at hu hv
    obtain ⟨t, ht, b, hb, hu⟩ := hu
    obtain ⟨t', ht', b', hb', hv⟩ := hv
    obtain rfl := h.eval_eq ht ht'
    obtain rfl := Except.ok.inj (hb.symm.trans hb')
    cases b
    · exact h.eval_eq hu hv
    · exact h.eval_eq hu hv
  | .call func args keywords, u, v, hu, hv => by
    obtain ⟨arg, a, rfl, rfl, ha, hcall⟩ := PyFloats.eval_call hu
    obtain ⟨arg', a', harg, -, ha', hcall'⟩ := PyFloats.eval_call hv
    cases harg
    obtain rfl := h.eval_eq ha ha'
    exact hcall.unique rfl hcall'
  | .attribute value attr, _, _, hu, _ => by cases hu
  | .other cls, _, _, hu, _ => by cases hu

end Agreement

/-- The frame knows what Python's frame holds. -/
structure SafeFrame.Shows (fr : SafeFrame F) (pf : PyFrame F) : Prop where
  arg : ∀ v, fr.arg = some v → pf.vals fr.param = some v
  locals : ∀ name v, fr.locals name = some v → pf.vals name = some v

section Shows
variable {fr : SafeFrame F} {pf : PyFrame F}

theorem SafeFrame.Shows.view (h : fr.Shows pf) : fr.view.Le pf := by
  intro name v hv
  simp only [SafeFrame.view] at hv
  split at hv
  · rename_i hname
    exact hname ▸ h.arg v hv
  · exact h.locals name v hv

theorem SafeFrame.Shows.forget (h : fr.Shows pf) (name : String) : (fr.forget name).Shows pf where
  arg := h.arg
  locals n u hu := h.locals n u (locals_of_forget hu).2

theorem SafeFrame.Shows.lose (h : fr.Shows pf) (name : String) (v : PyVal F) :
    (fr.lose name).Shows (pf.bind name v) where
  arg u hu := by
    obtain ⟨hname, hu⟩ := arg_of_lose hu
    simpa only [SafeFrame.lose, PyFrame.bind, Function.update_of_ne hname] using h.arg u hu
  locals n u hu := by
    obtain ⟨hn, hu⟩ := locals_of_forget hu
    simpa only [PyFrame.bind, Function.update_of_ne hn] using h.locals n u hu

theorem SafeFrame.Shows.bind (h : fr.Shows pf) (name : String) (v : PyVal F) :
    (fr.bind name v).Shows (pf.bind name v) where
  arg := (h.lose name v).arg
  locals n u hu := by
    obtain ⟨rfl, rfl⟩ | hu := locals_of_bind hu
    · simp only [PyFrame.bind, Function.update_self]
    · exact (h.lose name v).locals n u hu

end Shows

/-- What is known where a call begins. -/
def SafeFrame.start (param : String) (x : PyVal F) : SafeFrame F := ⟨param, some x, fun _ => none⟩

theorem SafeFrame.start_shows (node : FnNode F) (param : String) (x : PyVal F) :
    (start param x).Shows (node.frame param x) where
  arg v hv := by simpa [start, FnNode.frame] using hv
  locals name v hv := by cases hv

end Gilmap
