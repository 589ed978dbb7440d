import Gilmap.Jit.Lower

/-! # Whole kernels: the scalar and the two-lane code path

`compile_scalar`, `SimdLowerer`, `compile_simd` and `compile` of `src/jit.rs`. The three
block parameters (input pointer, output pointer, length) are the values 0, 1 and 2;
`i_var` is variable 0 and the result slot variable 1.
-/
namespace Gilmap
variable {F : Type}

structure Compiled (F : Type) where
  code : List (Item F)
  varTys : List ClTy
  valTys : List ClTy
  locals : Locals
  deriving DecidableEq, Repr

def Compiled.varTy (g : Compiled F) (v : ℕ) : ClTy := g.varTys.getD v .i64

def Compiled.valTy (g : Compiled F) (k : ℕ) : ClTy := g.valTys.getD k .i64

def iVar : ℕ := 0
def resultVar : ℕ := 1

/-- `base + i * 8`, the address of the current slot. -/
def slotExpr (base : ℕ) : ClExpr F :=
  .intBin .iadd (.value base) (.intBin .imul (.useVar iVar) (.iconst 8))

/-- `i += step` -/
def bumpIndex (step : ℕ) : Item F :=
  .defVar iVar (.intBin .iadd (.useVar iVar) (.iconst (BitVec.ofNat 64 step)))

/-- `define_function`: the verifier sees the finished function. -/
def defineFunction (code : List (Item F)) (s : LowerState) : Except CompileError (Compiled F) :=
  if code.all (Item.verify s.varTy s.valTy) then
    .ok { code := code, varTys := s.varTys, valTys := s.valTys, locals := s.locals }
  else .error .verifier

/-! ## Scalar path -/

def scalarCx (k : Kernel F) : LowerCx where
  inputDtype := k.inputDtype
  outputDtype := k.outputDtype
  param := 3
  resultVar := resultVar
  elemExit := 3

def scalarStart (k : Kernel F) : LowerState where
  nextBlock := 5
  varTys := [.i64, clType k.outputDtype]
  valTys := [.i64, .i64, .i64, clType k.inputDtype]
  locals := []
  terminated := false

/-- Entry, loop header and the load of the current element. -/
def scalarPrologue (k : Kernel F) : List (Item F) :=
  [.label 0, .defVar iVar (.iconst 0), .jump 1,
    .label 1, .brif (.icmp .ult (.useVar iVar) (.value 2)) 2 4,
    .label 2, .load 3 (clType k.inputDtype) (slotExpr 0)]

/-- The default that `compile_scalar` writes when the body has not terminated. -/
def defaultReturn (dtype : Dtype) (fl : FloatOps F) : ClExpr F :=
  match dtype with
  | .i64 => .iconst 0
  | .f64 => .f64const fl.zero

def scalarFallback (fl : FloatOps F) (k : Kernel F) (s : LowerState) (elemExit : ℕ) :
    List (Item F) :=
  if s.terminated then []
  else [.defVar resultVar (defaultReturn k.outputDtype fl), .jump elemExit]

/-- The store of the result and the back edge of the element loop. -/
def scalarEpilogue : List (Item F) :=
  [.label 3, .store (.useVar resultVar) (slotExpr 1), bumpIndex 1, .jump 1, .label 4, .ret]

def compileScalar (fl : FloatOps F) (k : Kernel F) : Except CompileError (Compiled F) := do
  let (body, s) ← lowerBody (scalarCx k) [] k.body (scalarStart k)
  defineFunction (scalarPrologue k ++ body ++ scalarFallback fl k s 3 ++ scalarEpilogue) s

/-! ## Two-lane path -/

/-- The `inspect` of `guess_simd_cmp_dtype`. -/
def inspectSimdDtype (inputDtype : Dtype) : Expr F → Option Dtype
  | .constF64 _ | .castToF64 _ => some .f64
  | .constI64 _ | .castToI64 _ => some .i64
  | .param => some inputDtype
  | .binOp _ left right | .compare _ left right =>
    (inspectSimdDtype inputDtype left).or (inspectSimdDtype inputDtype right)
  | .unary _ operand => inspectSimdDtype inputDtype operand
  | .ifExpr _ yes no => (inspectSimdDtype inputDtype yes).or (inspectSimdDtype inputDtype no)
  | .constBool _ => some .i64
  | .localVar _ | .mathCall _ _ => none

def guessSimdCmpDtype (inputDtype : Dtype) (left right : Expr F) : Dtype :=
  ((inspectSimdDtype inputDtype left).or (inspectSimdDtype inputDtype right)).getD .i64

def simdCoerce (e : ClExpr F) (actual expected : Dtype) : ClExpr F :=
  match actual, expected with
  | .i64, .i64 | .f64, .f64 => e
  | .i64, .f64 => .fcvtFromSint .f64x2 e
  | .f64, .i64 => .fcvtToSint .i64x2 e

def simdBinOp (op : BinOp) (l r : ClExpr F) (dtype : Dtype) : Except CompileError (ClExpr F) :=
  match op, dtype with
  | .add, .i64 => .ok (.intBin .iadd l r)
  | .sub, .i64 => .ok (.intBin .isub l r)
  | .mul, .i64 => .ok (.intBin .imul l r)
  | .div, .i64 | .floorDiv, .i64 => .ok (.sdiv l r)
  | .mod, .i64 => .ok (.srem l r)
  | .pow, .i64 => .error (.err "integer pow not supported in SIMD JIT")
  | .add, .f64 => .ok (.floatBin .fadd l r)
  | .sub, .f64 => .ok (.floatBin .fsub l r)
  | .mul, .f64 => .ok (.floatBin .fmul l r)
  | .div, .f64 => .ok (.floatBin .fdiv l r)
  | .floorDiv, .f64 | .mod, .f64 => .error (.err "floor/mod on f64 not supported in SIMD JIT")
  | .pow, .f64 => .error (.err "f64 pow uses libm; not supported in SIMD path")

/-- `SimdLowerer::lower`; `param` is the loaded vector. -/
def simdLower (inputDtype : Dtype) (param : ℕ) :
    Expr F → Dtype → Except CompileError (ClExpr F)
  | .param, expected => .ok (simdCoerce (.value param) inputDtype expected)
  | .constI64 value, expected =>
    .ok (simdCoerce (.splat (.iconst (BitVec.ofInt 64 value))) .i64 expected)
  | .constF64 value, expected => .ok (simdCoerce (.splat (.f64const value)) .f64 expected)
  -- the mask shape that `bitselect` requires
  | .constBool value, _ => .ok (.splat (.iconst (if value then BitVec.allOnes 64 else 0)))
  | .unary op operand, expected => do
    let v ← simdLower inputDtype param operand expected
    .ok (lowerUnary op v expected)
  | .binOp op left right, expected => do
    let l ← simdLower inputDtype param left expected
    let r ← simdLower inputDtype param right expected
    simdBinOp op l r expected
  | .compare op left right, _ => do
    let cmpDtype := guessSimdCmpDtype inputDtype left right
    let l ← simdLower inputDtype param left cmpDtype
    let r ← simdLower inputDtype param right cmpDtype
    .ok (lowerCmpOp op l r cmpDtype)
  | .ifExpr test yes no, expected => do
    let condRaw ← simdLower inputDtype param test .i64
    let yesV ← simdLower inputDtype param yes expected
    let noV ← simdLower inputDtype param no expected
    .ok (.bitselect (match expected with
      | .i64 => condRaw
      | .f64 => .bitcastF64x2 condRaw) yesV noV)
  | .castToI64 value, _ => do
    let v ← simdLower inputDtype param value .f64
    .ok (.fcvtToSint .i64x2 v)
  | .castToF64 value, _ => do
    let v ← simdLower inputDtype param value .i64
    .ok (.fcvtFromSint .f64x2 v)
  | .localVar _, _ | .mathCall _ _, _ => .error .panic

/-- The tail's `Lowerer`: the loaded element is value 5. -/
def tailCx (k : Kernel F) : LowerCx where
  inputDtype := k.inputDtype
  outputDtype := k.outputDtype
  param := 5
  resultVar := resultVar
  elemExit := 5

def tailStart (k : Kernel F) : LowerState where
  nextBlock := 7
  varTys := [.i64, clType k.outputDtype]
  valTys := [.i64, .i64, .i64, .i64, clVecType k.inputDtype, clType k.inputDtype]
  locals := []
  terminated := false

/-- Entry and main loop; value 3 is `vec_end = len - len % SIMD_LANES`, value 4 the
loaded vector. -/
def simdMainLoop (k : Kernel F) (vecResult : ClExpr F) : List (Item F) :=
  [.label 0, .defVar iVar (.iconst 0),
    .letVal 3 (.intBin .isub (.value 2) (.urem (.value 2) (.iconst (BitVec.ofNat 64 simdLanes)))),
    .jump 1,
    .label 1, .brif (.icmp .ult (.useVar iVar) (.value 3)) 2 3,
    .label 2, .load 4 (clVecType k.inputDtype) (slotExpr 0), .store vecResult (slotExpr 1),
    bumpIndex simdLanes, .jump 1]

def tailPrologue (k : Kernel F) : List (Item F) :=
  [.label 3, .brif (.icmp .ult (.useVar iVar) (.value 2)) 4 6,
    .label 4, .load 5 (clType k.inputDtype) (slotExpr 0)]

def tailEpilogue : List (Item F) :=
  [.label 5, .store (.useVar resultVar) (slotExpr 1), bumpIndex 1, .jump 3, .label 6, .ret]

def compileSimd (k : Kernel F) : Except CompileError (Compiled F) :=
  match k.singleReturn with
  | none => .error .panic
  | some value => do
    let vecResult ← simdLower k.inputDtype 4 value k.outputDtype
    let (body, s) ← lowerBody (tailCx k) [] k.body (tailStart k)
    defineFunction (simdMainLoop k vecResult ++ tailPrologue k ++ body ++ tailEpilogue) s

/-- `compile` -/
def compile (fl : FloatOps F) (k : Kernel F) : Except CompileError (Compiled F) :=
  if k.isVectorizablePhase1 then compileSimd k else compileScalar fl k

/-! ## Calls -/

/-- The state in which a compiled kernel is entered. -/
def Compiled.enter (fl : FloatOps F) (g : Compiled F) (inPtr outPtr len : BitVec 64) : Local F where
  ctl := .at (codeAfter 0 g.code)
  vars v := Val.zeroOf fl (g.varTy v)
  vals k := if k = 0 then .i64 inPtr else if k = 1 then .i64 outPtr else
    if k = 2 then .i64 len else Val.zeroOf fl (g.valTy k)

end Gilmap
