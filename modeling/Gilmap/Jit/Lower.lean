import Gilmap.Clif.Code

/-! # Scalar code generation

`Lowerer` of `src/jit.rs`. The builder's state is passed along explicitly and every
function returns the instructions it emits; the stack of loop frames, which the source
pushes and pops around a loop body, is a parameter.
-/
namespace Gilmap

/-- Why a kernel is not compiled. -/
inductive CompileError
  /-- `Err(..)` of the code generator -/
  | err (msg : String)
  /-- a Rust panic: `def_var` with a value of another type, or an `unreachable!` -/
  | panic
  /-- `define_function` rejects the finished function -/
  | verifier
  deriving DecidableEq, Repr

/-- The `locals` map: name to variable and dtype. -/
abbrev Locals := List (String × (ℕ × Dtype))

def Locals.dtype (Γ : Locals) (name : String) : Option Dtype := (Γ.lookup name).map Prod.snd

/-- Per-loop context for `break` and `continue`. -/
structure LoopFrame where
  headerBlock : ℕ
  exitBlock : ℕ
  deriving DecidableEq, Repr

/-- The fields of `Lowerer` that never change. -/
structure LowerCx where
  inputDtype : Dtype
  outputDtype : Dtype
  param : ℕ
  resultVar : ℕ
  elemExit : ℕ

structure LowerState where
  nextBlock : ℕ
  varTys : List ClTy
  valTys : List ClTy
  locals : Locals
  terminated : Bool
  deriving DecidableEq, Repr

def LowerState.varTy (s : LowerState) (v : ℕ) : ClTy := s.varTys.getD v .i64

def LowerState.valTy (s : LowerState) (k : ℕ) : ClTy := s.valTys.getD k .i64

variable {F : Type}

def LowerState.tyOf (s : LowerState) (e : ClExpr F) : ClTy := e.ty s.varTy s.valTy

/-! ## Expressions -/

/-- The `inspect` of `guess_cmp_dtype`. -/
def inspectDtype (inputDtype : Dtype) (locals : String → Option Dtype) : Expr F → Option Dtype
  | .constF64 _ | .mathCall _ _ | .castToF64 _ => some .f64
  | .constI64 _ | .castToI64 _ => some .i64
  | .param => some inputDtype
  | .localVar name => locals name
  | .binOp _ left right | .compare _ left right =>
    (inspectDtype inputDtype locals left).or (inspectDtype inputDtype locals right)
  | .unary _ operand => inspectDtype inputDtype locals operand
  | .ifExpr _ yes no => (inspectDtype inputDtype locals yes).or (inspectDtype inputDtype locals no)
  | .constBool _ => some .i64

def guessCmpDtype (inputDtype : Dtype) (locals : String → Option Dtype) (left right : Expr F) :
    Dtype :=
  ((inspectDtype inputDtype locals left).or (inspectDtype inputDtype locals right)).getD .i64

def lowerCoerce (e : ClExpr F) (actual expected : Dtype) : ClExpr F :=
  match actual, expected with
  | .i64, .i64 | .f64, .f64 => e
  | .i64, .f64 => .fcvtFromSint .f64 e
  | .f64, .i64 => .fcvtToSint .i64 e

/-- `bin_op` -/
def lowerBinOp (op : BinOp) (l r : ClExpr F) (dtype : Dtype) : Except CompileError (ClExpr F) :=
  match op, dtype with
  | .add, .i64 => .ok (.intBin .iadd l r)
  | .sub, .i64 => .ok (.intBin .isub l r)
  | .mul, .i64 => .ok (.intBin .imul l r)
  | .div, .i64 | .floorDiv, .i64 => .ok (.sdiv l r)
  | .mod, .i64 => .ok (.srem l r)
  | .pow, .i64 => .error (.err "integer pow not supported in JIT")
  | .add, .f64 => .ok (.floatBin .fadd l r)
  | .sub, .f64 => .ok (.floatBin .fsub l r)
  | .mul, .f64 => .ok (.floatBin .fmul l r)
  | .div, .f64 => .ok (.floatBin .fdiv l r)
  | .floorDiv, .f64 | .mod, .f64 => .error (.err "floor/mod on f64 not supported in JIT")
  | .pow, .f64 => .ok (.callPow l r)

def CmpOp.intCC : CmpOp → IntCC
  | .lt => .slt
  | .le => .sle
  | .gt => .sgt
  | .ge => .sge
  | .eq => .eq
  | .ne => .ne

def CmpOp.floatCC : CmpOp → FloatCC
  | .lt => .lt
  | .le => .le
  | .gt => .gt
  | .ge => .ge
  | .eq => .eq
  | .ne => .ne

/-- `cmp_op`; on vectors the same instructions give lane masks. -/
def lowerCmpOp (op : CmpOp) (l r : ClExpr F) (dtype : Dtype) : ClExpr F :=
  match dtype with
  | .i64 => .icmp op.intCC l r
  | .f64 => .fcmp op.floatCC l r

def lowerUnary (op : UnaryOp) (v : ClExpr F) (dtype : Dtype) : ClExpr F :=
  match op, dtype with
  | .neg, .i64 => .ineg v
  | .neg, .f64 => .fneg v
  | .plus, _ => v

def MathFn.libm : MathFn → LibmFn
  | .sqrt => .sqrt
  | .abs => .fabs
  | .exp => .exp
  | .log => .log
  | .sin => .sin
  | .cos => .cos
  | .tan => .tan
  | .floor => .floor
  | .ceil => .ceil

/-- `lower_expr`; `expected` is the dtype the consumer wants. -/
def lowerExpr (cx : LowerCx) (Γ : Locals) : Expr F → Dtype → Except CompileError (ClExpr F)
  | .param, expected => .ok (lowerCoerce (.value cx.param) cx.inputDtype expected)
  | .localVar name, expected =>
    match Γ.lookup name with
    | none => .error (.err s!"unknown local '{name}'")
    | some (var, dtype) => .ok (lowerCoerce (.useVar var) dtype expected)
  | .constI64 value, expected => .ok (lowerCoerce (.iconst (BitVec.ofInt 64 value)) .i64 expected)
  | .constF64 value, expected => .ok (lowerCoerce (.f64const value) .f64 expected)
  | .constBool value, _ => .ok (.iconst (if value then 1 else 0))
  | .unary op operand, expected => do
    let v ← lowerExpr cx Γ operand expected
    .ok (lowerUnary op v expected)
  | .binOp op left right, expected => do
    let l ← lowerExpr cx Γ left expected
    let r ← lowerExpr cx Γ right expected
    lowerBinOp op l r expected
  | .compare op left right, _ => do
    let cmpDtype := guessCmpDtype cx.inputDtype Γ.dtype left right
    let l ← lowerExpr cx Γ left cmpDtype
    let r ← lowerExpr cx Γ right cmpDtype
    .ok (lowerCmpOp op l r cmpDtype)
  | .ifExpr test yes no, expected => do
    let cond ← lowerExpr cx Γ test .i64
    let yesV ← lowerExpr cx Γ yes expected
    let noV ← lowerExpr cx Γ no expected
    .ok (.select cond yesV noV)
  | .mathCall func arg, expected =>
    if expected = .f64 then do
      let v ← lowerExpr cx Γ arg .f64
      .ok (.callLibm func.libm v)
    else .error (.err "math.* result is f64; assign to an f64 slot")
  | .castToI64 value, _ => do
    let v ← lowerExpr cx Γ value .f64
    .ok (.fcvtToSint .i64 v)
  | .castToF64 value, _ => do
    let v ← lowerExpr cx Γ value .i64
    .ok (.fcvtFromSint .f64 v)

/-! ## Statements -/

/-- `declare_var` -/
def LowerState.declareVar (s : LowerState) (name : String) (dtype : Dtype) : ℕ × LowerState :=
  (s.varTys.length, { s with
    varTys := s.varTys ++ [clType dtype]
    locals := (name, s.varTys.length, dtype) :: s.locals })

/-- `def_var` panics when the value's type is not the variable's. -/
def defVar (s : LowerState) (v : ℕ) (e : ClExpr F) : Except CompileError (Item F) :=
  if s.tyOf e = s.varTy v then .ok (.defVar v e) else .error .panic

/-- The variable an assignment writes. -/
def assignVar (s : LowerState) (name : String) (dtype : Dtype) :
    Except CompileError (ℕ × LowerState) :=
  match s.locals.lookup name with
  | some (existing, existingDtype) =>
    if existingDtype = dtype then .ok (existing, s)
    else .error (.err (s!"local '{name}' redeclared with different dtype: " ++
      s!"{dtypeDebug existingDtype} -> {dtypeDebug dtype}"))
  | none => .ok (s.declareVar name dtype)
where
  dtypeDebug : Dtype → String
    | .i64 => "I64"
    | .f64 => "F64"

/-- The counter of a `for` loop: the user's own variable, whatever its dtype. -/
def counterVar (s : LowerState) (name : String) : ℕ × LowerState :=
  match s.locals.lookup name with
  | some (existing, _) => (existing, s)
  | none => s.declareVar name .i64

/-- A fresh SSA value of the type of `e`. -/
def LowerState.newValue (s : LowerState) (e : ClExpr F) : ℕ × LowerState :=
  (s.valTys.length, { s with valTys := s.valTys ++ [s.tyOf e] })

/-- `create_block`, `n` times -/
def LowerState.createBlocks (s : LowerState) (n : ℕ) : LowerState :=
  { s with nextBlock := s.nextBlock + n }

def LowerState.setTerminated (s : LowerState) (b : Bool) : LowerState := { s with terminated := b }

/-- The jump that closes a block unless its body already has. -/
def closeBlock (s : LowerState) (target : ℕ) : List (Item F) :=
  if s.terminated then [] else [.jump target]

mutual

/-- `lower_stmt` -/
def lowerStmt (cx : LowerCx) (loops : List LoopFrame) :
    Stmt F → LowerState → Except CompileError (List (Item F) × LowerState)
  | .assign name dtype value, s => do
    let v ← lowerExpr cx s.locals value dtype
    let (var, s) ← assignVar s name dtype
    let item ← defVar s var v
    .ok ([item], s)
  | .ret value, s => do
    let v ← lowerExpr cx s.locals value cx.outputDtype
    let item ← defVar s cx.resultVar v
    .ok ([item, .jump cx.elemExit], s.setTerminated true)
  | .forRange var start stop body, s => do
    let startV ← lowerExpr cx s.locals start .i64
    let (startK, s) := s.newValue startV
    let stopV ← lowerExpr cx s.locals stop .i64
    let (stopK, s) := s.newValue stopV
    let (counter, s) := counterVar s var
    let init ← defVar s counter (.value startK)
    let header := s.nextBlock
    let bodyBlock := s.nextBlock + 1
    let exit := s.nextBlock + 2
    let incBlock := s.nextBlock + 3
    let s := s.createBlocks 4
    -- `continue` goes through the increment block
    let (code, s) ← lowerBody cx (⟨incBlock, exit⟩ :: loops) body (s.setTerminated false)
    .ok ([.letVal startK startV, .letVal stopK stopV, init, .jump header,
        .label header, .brif (.icmp .slt (.useVar counter) (.value stopK)) bodyBlock exit,
        .label incBlock, .defVar counter (.intBin .iadd (.useVar counter) (.iconst 1)),
        .jump header, .label bodyBlock] ++ code ++ closeBlock s incBlock ++ [.label exit],
      s.setTerminated false)
  | .whileDo cond body, s => do
    let header := s.nextBlock
    let bodyBlock := s.nextBlock + 1
    let exit := s.nextBlock + 2
    let s := s.createBlocks 3
    let condV ← lowerExpr cx s.locals cond .i64
    let (code, s) ← lowerBody cx (⟨header, exit⟩ :: loops) body (s.setTerminated false)
    .ok ([.jump header, .label header, .brif condV bodyBlock exit, .label bodyBlock] ++ code ++
        closeBlock s header ++ [.label exit], s.setTerminated false)
  | .ifElse test thenBody elseBody, s => do
    let cond ← lowerExpr cx s.locals test .i64
    let thenBlock := s.nextBlock
    let elseBlock := s.nextBlock + 1
    let contBlock := s.nextBlock + 2
    let s := s.createBlocks 3
    let (thenCode, s) ← lowerBody cx loops thenBody (s.setTerminated false)
    let thenClose := closeBlock s contBlock
    let (elseCode, s) ← lowerBody cx loops elseBody (s.setTerminated false)
    .ok ([.brif cond thenBlock elseBlock, .label thenBlock] ++ thenCode ++ thenClose ++
        [.label elseBlock] ++ elseCode ++ closeBlock s contBlock ++ [.label contBlock],
      s.setTerminated false)
  | .brk, s =>
    match loops with
    | [] => .error (.err "`break` outside of any loop")
    | frame :: _ => .ok ([.jump frame.exitBlock], s.setTerminated true)
  | .cont, s =>
    match loops with
    | [] => .error (.err "`continue` outside of any loop")
    | frame :: _ => .ok ([.jump frame.headerBlock], s.setTerminated true)

/-- `lower_body`: whatever follows a terminating statement is dropped. -/
def lowerBody (cx : LowerCx) (loops : List LoopFrame) :
    List (Stmt F) → LowerState → Except CompileError (List (Item F) × LowerState)
  | [], s => .ok ([], s)
  | stmt :: rest, s =>
    if s.terminated then .ok ([], s)
    else do
      let (code, s) ← lowerStmt cx loops stmt s
      let (code', s) ← lowerBody cx loops rest s
      .ok (code ++ code', s)

end

end Gilmap
