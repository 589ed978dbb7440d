import Mathlib.Data.Int.Notation
import Mathlib.Data.Nat.Notation

/-! # The typed IR shared by the Python walker and the Cranelift code generator

Translated from `src/ast_ir.rs`. Integer constants are unbounded here because the
walker writes Python integers; decoding the JSON text is what restricts them to
`i64`. Float constants range over an arbitrary carrier `F`.
-/
namespace Gilmap

inductive Dtype
  | i64
  | f64
  deriving DecidableEq, Repr

inductive BinOp
  | add
  | sub
  | mul
  | div
  | floorDiv
  | mod
  | pow
  deriving DecidableEq, Repr

inductive CmpOp
  | lt
  | le
  | gt
  | ge
  | eq
  | ne
  deriving DecidableEq, Repr

inductive UnaryOp
  | neg
  | plus
  deriving DecidableEq, Repr

inductive MathFn
  | sqrt
  | abs
  | exp
  | log
  | sin
  | cos
  | tan
  | floor
  | ceil
  deriving DecidableEq, Repr

inductive Expr (F : Type)
  /-- Function input (single arg). -/
  | param
  /-- Local variable read; its type is recovered from the `assign` that introduced it. -/
  | localVar (name : String)
  | constI64 (value : ℤ)
  | constF64 (value : F)
  | constBool (value : Bool)
  | binOp (op : BinOp) (left right : Expr F)
  | unary (op : UnaryOp) (operand : Expr F)
  | compare (op : CmpOp) (left right : Expr F)
  | ifExpr (test yes no : Expr F)
  | mathCall (func : MathFn) (arg : Expr F)
  | castToI64 (value : Expr F)
  | castToF64 (value : Expr F)
  deriving DecidableEq, Repr

inductive Stmt (F : Type)
  | assign (name : String) (dtype : Dtype) (value : Expr F)
  /-- `for var in range(start, stop)`: both bounds are evaluated once, the step is 1. -/
  | forRange (var : String) (start stop : Expr F) (body : List (Stmt F))
  | whileDo (cond : Expr F) (body : List (Stmt F))
  | ifElse (test : Expr F) (thenBody elseBody : List (Stmt F))
  | ret (value : Expr F)
  | brk
  | cont
  deriving Repr

structure Kernel (F : Type) where
  inputDtype : Dtype
  outputDtype : Dtype
  body : List (Stmt F)
  deriving Repr

variable {F : Type}

/-- `is_pure_simd_expr`: no locals, no math calls, and only the operators that the
vector backends lower lane by lane. -/
def isPureSimdExpr : Expr F → Bool
  | .param => true
  | .constI64 _ => true
  | .constF64 _ => true
  | .constBool _ => true
  | .localVar _ => false
  | .mathCall _ _ => false
  | .unary _ operand => isPureSimdExpr operand
  | .binOp op left right =>
    match op with
    | .mod | .floorDiv | .div | .pow => false
    | _ => isPureSimdExpr left && isPureSimdExpr right
  | .compare _ left right => isPureSimdExpr left && isPureSimdExpr right
  | .ifExpr test yes no => isPureSimdExpr test && isPureSimdExpr yes && isPureSimdExpr no
  | .castToI64 value => isPureSimdExpr value
  | .castToF64 value => isPureSimdExpr value

/-- The expression of a body that is a single `return`, the only vectorizable shape. -/
def Kernel.singleReturn (k : Kernel F) : Option (Expr F) :=
  match k.body with
  | [.ret value] => some value
  | _ => none

def Kernel.isVectorizablePhase1 (k : Kernel F) : Bool :=
  match k.singleReturn with
  | some value => isPureSimdExpr value
  | none => false

end Gilmap
