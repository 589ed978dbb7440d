import Gilmap.Library.Transition
import Gilmap.Python.TryCompile

/-! # The router

`gilmap/_router.py` and the part of `gilmap.map` around it: the four detectors, the cache
of their decisions, and what the fast path of the chosen backend is handed. The closures of
the three backends in front of the JIT are only named.
-/
namespace Gilmap
open Library
variable {F : Type}

/-! ## Callables -/

/-- What the detectors read of a callable. -/
structure PyFunc (F : Type) where
  id : ℕ
  /-- `weakref.ref` accepts the object -/
  weakref : Bool
  /-- the result of `find_fn_node` -/
  node : Option (FnNode F)
  /-- the `address` attribute, where it is an `int` -/
  address : Option ℤ
  /-- `_sig.args` and `_sig.return_type` as strings, where both are there -/
  sig : Option (List String × String)
  nopythonSignatures : Bool
  isNjit : Bool
  classModule : String

/-! ## `_detect_arrow_kernel` -/

def arrowBinOp : PyBinOp → Bool
  | .add | .sub | .mult | .div | .pow | .bitAnd | .bitOr | .bitXor => true
  | .mod | .floorDiv | .matMult | .lShift | .rShift => false

def arrowUnaryOp : PyUnaryOp → Bool
  | .uSub | .uAdd | .invert => true
  | .not => false

def arrowCmpOp : PyCmpOp → Bool
  | .lt | .ltE | .gt | .gtE | .eq | .notEq => true
  | .is | .isNot | .isIn | .notIn => false

def arrowMathCalls : List String :=
  ["sqrt", "abs", "exp", "log", "sin", "cos", "tan", "floor", "ceil", "round"]

/-- `lower` yields a closure. -/
def arrowLowers (paramName : String) : PyExpr F → Bool
  | .name id => id = paramName
  | .constant _ => true
  | .unaryOp op operand => arrowUnaryOp op && arrowLowers paramName operand
  | .binOp left op right =>
    arrowBinOp op && arrowLowers paramName left && arrowLowers paramName right
  | .call (.attribute (.name "math") attr) [arg] [] =>
    attr ∈ arrowMathCalls && arrowLowers paramName arg
  | .ifExp test body orelse =>
    arrowLowers paramName test && arrowLowers paramName body && arrowLowers paramName orelse
  | .compare left [op] [comparator] =>
    arrowCmpOp op && arrowLowers paramName left && arrowLowers paramName comparator
  | _ => false

def stripDocstring : List (PyStmt F) → List (PyStmt F)
  | stmt :: rest => if stmt.isDocstring then rest else stmt :: rest
  | [] => []

/-- `_func_body_expr` -/
def funcBodyExpr (func : PyFunc F) : Option (PyExpr F × String) :=
  match func.node with
  | some (.lambda [param] body) => some (body, param)
  | some (.functionDef [param] body) =>
    match stripDocstring body with
    | [.ret (some value)] => some (value, param)
    | _ => none
  | _ => none

/-! ## Decisions -/

inductive Backend
  | arrowKernel
  | numbaCfunc
  | numbaNative
  | jit
  | subinterp
  deriving DecidableEq, Repr

/-- The closure `fast`, by what it has captured. -/
inductive FastPath (F : Type)
  | arrow (body : PyExpr F) (paramName : String)
  | cfunc (addr : ℤ) (dtype : Dtype)
  | numba
  | jit (kernel : Kernel F) (code : Compiled F) (inDtype outDtype : Dtype)
  deriving Repr

structure BackendDecision (F : Type) where
  backend : Backend
  reason : String
  fastPath : Option (FastPath F)
  deriving Repr

def detectArrowKernel (func : PyFunc F) : Option (BackendDecision F) :=
  match funcBodyExpr func with
  | none => none
  | some (body, paramName) =>
    if arrowLowers paramName body then
      some ⟨.arrowKernel, "body lowers to pyarrow.compute kernel chain", some (.arrow body paramName)⟩
    else none

/-- `_NUMBA_DTYPE_MAP` -/
def numbaDtypeMap : String → Option Dtype
  | "int64" => some .i64
  | "float64" => some .f64
  | _ => none

/-- `_read_cfunc_dtype_sig` -/
def readCfuncDtypeSig (func : PyFunc F) : Option Dtype :=
  match func.sig with
  | some ([arg], ret) => if numbaDtypeMap arg = numbaDtypeMap ret then numbaDtypeMap arg else none
  | _ => none

def detectNumbaCfunc (func : PyFunc F) : Option (BackendDecision F) :=
  match func.address, readCfuncDtypeSig func with
  | some addr, some dtype =>
    some ⟨.numbaCfunc, s!"@cfunc raw extern C pointer ({dtypeTag dtype})", some (.cfunc addr dtype)⟩
  | _, _ => none

/-- `_detect_numba` -/
def detectNumba (func : PyFunc F) : Option (BackendDecision F) :=
  let njit := func.nopythonSignatures || func.isNjit || "numba".toList.isPrefixOf func.classModule.toList
  if njit || func.address.isSome then
    let kind := if njit then "numba_njit" else "cfunc"
    some ⟨.numbaNative, s!"detected {kind} via attribute introspection", some .numba⟩
  else none

/-- A panic of the code generator, which no handler on the way catches. -/
inductive DecideError
  | panic
  deriving DecidableEq, Repr

/-- The loop of `_detect_jit`. -/
def detectJitLanes (fl : FloatOps F) (func : PyFunc F) :
    List Dtype → Except DecideError (Option (BackendDecision F))
  | [] => .ok none
  | inDtype :: rest =>
    match tryCompile fl func.node inDtype with
    | .rejected => detectJitLanes fl func rest
    | .raises => .error .panic
    | .compiled kernel code =>
      .ok (some ⟨.jit,
        s!"native via Cranelift (in={dtypeTag inDtype}, out={dtypeTag kernel.outputDtype})",
        some (.jit kernel code inDtype kernel.outputDtype)⟩)

def detectJit (fl : FloatOps F) (func : PyFunc F) : Except DecideError (Option (BackendDecision F)) :=
  detectJitLanes fl func [.f64, .i64]

/-- What the detectors and the fallback give for the callable itself. -/
def detect (fl : FloatOps F) (func : PyFunc F) : Except DecideError (BackendDecision F) :=
  match detectArrowKernel func <|> detectNumbaCfunc func <|> detectNumba func with
  | some decision => .ok decision
  | none => do
    match ← detectJit fl func with
    | some decision => .ok decision
    | none => .ok ⟨.subinterp, "no faster backend matched", none⟩

/-! ## The decision cache -/

/-- The callables that are alive, `_DECISION_CACHE` and the keys of `_FINALIZERS`. -/
structure Router (F : Type) where
  live : List (PyFunc F)
  decisions : List (ℕ × BackendDecision F)
  finalizers : List ℕ

def Router.empty : Router F := ⟨[], [], []⟩

def Router.evict (r : Router F) (id : ℕ) : Router F :=
  { r with
    decisions := r.decisions.filter (·.1 ≠ id)
    finalizers := r.finalizers.filter (· ≠ id) }

/-- `_cache_decision` -/
def Router.cacheDecision (r : Router F) (func : PyFunc F) (decision : BackendDecision F) : Router F :=
  if func.weakref then
    { r with
      decisions := (func.id, decision) :: r.decisions
      finalizers := func.id :: r.finalizers }
  else { r with decisions := r.decisions.filter (·.1 ≠ func.id) }

/-- `decide` -/
def Router.decide (fl : FloatOps F) (r : Router F) (func : PyFunc F) :
    Except DecideError (BackendDecision F × Router F) :=
  match r.decisions.lookup func.id with
  | some decision => .ok (decision, r)
  | none => do
    let decision ← detect fl func
    .ok (decision, r.cacheDecision func decision)

/-- What the program does with callables; one is named by its id while it is alive. -/
inductive RouterAction (F : Type)
  | create (func : PyFunc F)
  /-- the last reference is dropped, and a weakref's callback runs -/
  | drop (id : ℕ)
  | decide (id : ℕ)
  | resetCache

/-- One step of the program. A new callable gets an id that no live one has. -/
def Router.step (fl : FloatOps F) (r : Router F) : RouterAction F → Option (Router F)
  | .create func =>
    if r.live.all (·.id ≠ func.id) then some { r with live := func :: r.live } else none
  | .drop id =>
    let r' := { r with live := r.live.filter (·.id ≠ id) }
    some (if id ∈ r.finalizers then r'.evict id else r')
  | .decide id => do
    let func ← r.live.find? (·.id = id)
    match r.decide fl func with
    | .ok (_, r') => some r'
    | .error _ => some r
  | .resetCache => some { r with decisions := [], finalizers := [] }

/-! ## `gilmap.map` -/

/-- Types of Arrow arrays. -/
inductive ArrowType
  | lane (d : Dtype)
  | float32
  | other (name : String)
  deriving DecidableEq, Repr

structure PaArray (F : Type) where
  type : ArrowType
  values : List (Val F)
  deriving DecidableEq, Repr

/-- What `pa.Array.cast` raises. -/
inductive CastError
  | arrowInvalid (message : String)
  | other (message : String)
  deriving DecidableEq, Repr

inductive MapError
  | typeError (message : String)
  | cast (error : CastError)
  | valueError (message : String)
  | decide (error : DecideError)
  deriving DecidableEq, Repr

/-- `pa.Array.cast` -/
abbrev ArrowCast (F : Type) := PaArray F → Dtype → Except CastError (PaArray F)

/-- `_to_arrow` on an array. -/
def toArrow (cast : ArrowCast F) (iterable : PaArray F) : Except MapError (PaArray F) :=
  let castOr (d : Dtype) (message : String) : Except MapError (PaArray F) :=
    match cast iterable d with
    | .ok arr => .ok arr
    | .error (.arrowInvalid _) => .error (.typeError message)
    | .error e => .error (.cast e)
  match iterable.type with
  | .lane _ => .ok iterable
  | .float32 => castOr .f64 "gilmap.map cannot cast input to float64."
  | .other _ => castOr .i64 "gilmap.map currently only supports arrays of integers or floats."

/-- `_cast_to_dtype_tag` -/
def castToDtypeTag (cast : ArrowCast F) (arr : PaArray F) (tag : Dtype) :
    Except MapError (PaArray F) :=
  if arr.type = .lane tag then .ok arr else (cast arr tag).mapError .cast

/-- A run of a kernel over an array: what `jit_apply` hands to `invoke_kernel_parallel`. -/
structure JitCall (F : Type) where
  kernel : Kernel F
  code : Compiled F
  inDtype : Dtype
  outDtype : Dtype
  array : PaArray F
  deriving Repr

def arrowTypeName : Dtype → String
  | .i64 => "Int64"
  | .f64 => "Float64"

def jitApply (kernel : Kernel F) (code : Compiled F) (inDtype outDtype : Dtype) (array : PaArray F) :
    Except MapError (JitCall F) :=
  if array.type = .lane inDtype then .ok ⟨kernel, code, inDtype, outDtype, array⟩
  else .error (.valueError s!"input array dtype mismatch: expected {arrowTypeName inDtype}")

/-- What `map` does with the array. -/
inductive Dispatched (F : Type)
  | jit (call : JitCall F)
  | native (path : FastPath F) (array : PaArray F)
  | fallback (array : PaArray F)
  deriving Repr

/-- `decision.fast_path(func, arr)`, or the fallback. -/
def BackendDecision.dispatch (cast : ArrowCast F) (decision : BackendDecision F) (arr : PaArray F) :
    Except MapError (Dispatched F) :=
  match decision.fastPath with
  | some (.jit kernel code inDtype outDtype) => do
    let arr ← castToDtypeTag cast arr inDtype
    (jitApply kernel code inDtype outDtype arr).map .jit
  | some path => .ok (.native path arr)
  | none => .ok (.fallback arr)

/-- `map` on an array. -/
def Router.map (fl : FloatOps F) (cast : ArrowCast F) (r : Router F) (func : PyFunc F)
    (iterable : PaArray F) : Except MapError (Dispatched F) := do
  let (decision, _) ← (r.decide fl func).mapError .decide
  let arr ← toArrow cast iterable
  decision.dispatch cast arr

end Gilmap
