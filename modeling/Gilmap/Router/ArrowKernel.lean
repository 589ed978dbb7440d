import Gilmap.Router.Decide

/-! # The closures of the Arrow backend

`lower` of `_detect_arrow_kernel` turns a body into a closure over the whole input array, a
chain of calls of `pyarrow.compute`. These take arrays and scalars; a constant of the body
stays the Python constant that it is.
-/
namespace Gilmap
variable {F : Type}

inductive PaTy
  | int64
  | bool
  | other (name : String)
  deriving DecidableEq, Repr

/-- What a closure returns: an array, or a scalar. Its values are written as constants. -/
inductive Datum (F : Type)
  | array (type : PaTy) (vals : List (PyConst F))
  | scalar (value : PyConst F)
  deriving Repr

inductive PaError
  | arrowInvalid (message : String)
  | arrowNotImplemented (message : String)
  | other (message : String)
  deriving DecidableEq, Repr

/-- The functions of `pyarrow` that the closures call. -/
structure PaCompute (F : Type) where
  /-- `_BINOPS` -/
  binOp : PyBinOp → Datum F → Datum F → Except PaError (Datum F)
  /-- `pc.negate` and `pc.bit_wise_not` -/
  unaryOp : PyUnaryOp → Datum F → Except PaError (Datum F)
  /-- `_MATH_CALLS` -/
  math : String → Datum F → Except PaError (Datum F)
  /-- `cmpmap` -/
  compare : PyCmpOp → Datum F → Datum F → Except PaError (Datum F)
  ifElse : Datum F → Datum F → Datum F → Except PaError (Datum F)
  /-- `pa.array` -/
  array : List (PyConst F) → Except PaError (Datum F)

namespace PaCompute
variable (pc : PaCompute F)

/-- `_UNARYOPS` -/
def unary (op : PyUnaryOp) (inner : Datum F) : Except PaError (Datum F) :=
  if op = .uAdd then .ok inner else pc.unaryOp op inner

/-- `lower` of `_detect_arrow_kernel` -/
def lower (paramName : String) : PyExpr F → Option (Datum F → Except PaError (Datum F))
  | .name id => if id = paramName then some fun arr => .ok arr else none
  | .constant value => some fun _ => .ok (.scalar value)
  | .unaryOp op operand =>
    if arrowUnaryOp op then do
      let inner ← lower paramName operand
      some fun arr => do pc.unary op (← inner arr)
    else none
  | .binOp left op right =>
    if arrowBinOp op then do
      let left ← lower paramName left
      let right ← lower paramName right
      some fun arr => do pc.binOp op (← left arr) (← right arr)
    else none
  | .call (.attribute (.name "math") attr) [arg] [] =>
    if attr ∈ arrowMathCalls then do
      let arg ← lower paramName arg
      some fun arr => do pc.math attr (← arg arr)
    else none
  | .ifExp test body orelse => do
    let cond ← lower paramName test
    let yes ← lower paramName body
    let no ← lower paramName orelse
    some fun arr => do pc.ifElse (← cond arr) (← yes arr) (← no arr)
  | .compare left [op] [comparator] =>
    if arrowCmpOp op then do
      let left ← lower paramName left
      let right ← lower paramName comparator
      some fun arr => do pc.compare op (← left arr) (← right arr)
    else none
  | _ => none

/-- `fast`, on an array of `n` elements. -/
def fast (compiled : Datum F → Except PaError (Datum F)) (arr : Datum F) (n : ℕ) :
    Except PaError (Datum F) := do
  match ← compiled arr with
  | .array type vals => .ok (.array type vals)
  | .scalar result => pc.array (List.replicate n result)

/-- The body lowered and run on an `int64` array. -/
def run (paramName : String) (body : PyExpr F) (arr : List ℤ) : Except PaError (Datum F) :=
  match pc.lower paramName body with
  | some compiled => pc.fast compiled (.array .int64 (arr.map .int)) arr.length
  | none => .error (.other "no kernel")

end PaCompute

/-- `decision.fast_path(func, arr)` of a decision for `arrow_kernel`. -/
def BackendDecision.callArrow (decision : BackendDecision F) (pc : PaCompute F) (arr : List ℤ) :
    Except PaError (Datum F) :=
  match decision.fastPath with
  | some (.arrow body paramName) => pc.run paramName body arr
  | some .numba | some (.cfunc _ _) | some (.jit _ _ _ _) | none => .error (.other "no kernel")

/-- The detector chooses the backend exactly for the bodies that `lower` has a closure for. -/
theorem lower_isSome (pc : PaCompute F) (paramName : String) (e : PyExpr F) :
    (pc.lower paramName e).isSome = arrowLowers paramName e := by
  fun_induction arrowLowers paramName e with
  | case1 id =>
    simp only [PaCompute.lower]
    split <;> simp_all
  | case2 c => rfl
  | case3 op operand ih =>
    simp only [PaCompute.lower, ← ih]
    cases arrowUnaryOp op <;> cases pc.lower paramName operand <;> rfl
  | case4 left op right ihl ihr =>
    simp only [PaCompute.lower, ← ihl, ← ihr]
    cases arrowBinOp op <;> cases pc.lower paramName left <;> cases pc.lower paramName right <;> rfl
  | case5 attr arg ih =>
    simp only [PaCompute.lower, ← ih]
    by_cases hattr : attr ∈ arrowMathCalls <;> cases pc.lower paramName arg <;> simp [hattr]
  | case6 test body orelse iht ihy ihn =>
    simp only [PaCompute.lower, ← iht, ← ihy, ← ihn]
    cases pc.lower paramName test <;> cases pc.lower paramName body <;>
      cases pc.lower paramName orelse <;> rfl
  | case7 left op comparator ihl ihr =>
    simp only [PaCompute.lower, ← ihl, ← ihr]
    cases arrowCmpOp op <;> cases pc.lower paramName left <;>
      cases pc.lower paramName comparator <;> rfl
  | case8 e hname hconst hunary hbin hcall hif hcmp =>
    unfold PaCompute.lower
    split
    case h_8 => rfl
    all_goals simp_all

end Gilmap
