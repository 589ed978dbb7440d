import Gilmap.Clif.Value

/-! # Calling a Python function on the elements of a slice

`src/per_element.rs` over the C API. An element is boxed, the function is called, and the
result is converted back; the conversion reports an error by returning -1 and setting the
error indicator.
-/
namespace Gilmap
variable {F Fn Obj : Type}

/-- The elements of an `int64` or `float64` slice. -/
abbrev Elem (F : Type) : Dtype → Type
  | .i64 => BitVec 64
  | .f64 => F

/-- `0i64` and `0f64` -/
def zeroElem (fl : FloatOps F) : (d : Dtype) → Elem F d
  | .i64 => 0
  | .f64 => fl.zero

/-- The part of Python that a worker calls for each element. An error is its text. -/
structure PyObjects (F Fn Obj : Type) where
  /-- `PyLong_FromLongLong` and `PyFloat_FromDouble` -/
  box : (d : Dtype) → Elem F d → Except String Obj
  /-- `PyObject_CallOneArg` -/
  callOneArg : Fn → Obj → Except String Obj
  /-- the C integer or float that an object converts to -/
  convert : (d : Dtype) → Obj → Except String (Elem F d)

/-- -1 -/
def minusOne (fl : FloatOps F) : (d : Dtype) → Elem F d
  | .i64 => -1
  | .f64 => fl.neg (fl.ofInt 1)

/-- The C operator `==`. -/
def elemEq (fl : FloatOps F) : (d : Dtype) → Elem F d → Elem F d → Bool
  | .i64, x, y => x == y
  | .f64, x, y => fl.cmp .eq x y

/-- `PyLong_AsLongLong` and `PyFloat_AsDouble`: the returned value and the error indicator. -/
def unbox (fl : FloatOps F) (O : PyObjects F Fn Obj) (d : Dtype) (resObj : Obj) :
    Elem F d × Option String :=
  match O.convert d resObj with
  | .ok v => (v, none)
  | .error e => (minusOne fl d, some e)

/-- One turn of the loop of `call_per_element_i64` and `call_per_element_f64`. -/
def perElement (fl : FloatOps F) (O : PyObjects F Fn Obj) (d : Dtype) (func : Fn) (val : Elem F d) :
    Except String (Elem F d) := do
  let valObj ← O.box d val
  let resObj ← O.callOneArg func valObj
  match unbox fl O d resObj with
  | (res, some e) => if elemEq fl d res (minusOne fl d) then .error e else .ok res
  | (res, none) => .ok res

def callPerElementI64 (fl : FloatOps F) (O : PyObjects F Fn Obj) :
    Fn → BitVec 64 → Except String (BitVec 64) :=
  perElement fl O .i64

def callPerElementF64 (fl : FloatOps F) (O : PyObjects F Fn Obj) : Fn → F → Except String F :=
  perElement fl O .f64

/-- `func(val)` in Python, as a number of the lane. -/
def pyCall (O : PyObjects F Fn Obj) (d : Dtype) (func : Fn) (val : Elem F d) :
    Except String (Elem F d) := do
  let valObj ← O.box d val
  let resObj ← O.callOneArg func valObj
  O.convert d resObj

/-- The value -1 of an error is recognised. -/
theorem perElement_eq_pyCall {fl : FloatOps F} (hfl : fl.cmp .eq (minusOne fl .f64) (minusOne fl .f64))
    (O : PyObjects F Fn Obj) (d : Dtype) (func : Fn) (val : Elem F d) :
    perElement fl O d func val = pyCall O d func val := by
  have hself : elemEq fl d (minusOne fl d) (minusOne fl d) = true := by
    cases d
    · exact beq_self_eq_true _
    · exact hfl
  unfold perElement pyCall
  cases O.box d val with
  | error e => rfl
  | ok valObj =>
    simp only [bind, Except.bind]
    cases O.callOneArg func valObj with
    | error e => rfl
    | ok resObj =>
      simp only [unbox]
      cases O.convert d resObj with
      | error e => simp only [hself, if_true]
      | ok v => rfl

end Gilmap
