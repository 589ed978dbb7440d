import Gilmap.Ir.Syntax
import Gilmap.Library.Json

/-! # Decoding the IR

What the derived `Deserialize` instances of `src/ast_ir.rs` make of a JSON value: enums of
names by their renamed variants, the two enums of nodes by the variant that `kind` names,
structs by their fields. A key that occurs twice is an error, one that no field asks for is
skipped. `serde_json` reads nothing that nests deeper than its recursion limit, and this is
the fuel.
-/
namespace Gilmap
open Library Library.Json
variable {F : Type}

/-! ## Names -/

def Dtype.ofTag : String → Option Dtype
  | "i64" => some .i64
  | "f64" => some .f64
  | _ => none

def BinOp.ofTag : String → Option BinOp
  | "add" => some .add
  | "sub" => some .sub
  | "mul" => some .mul
  | "div" => some .div
  | "floordiv" => some .floorDiv
  | "mod" => some .mod
  | "pow" => some .pow
  | _ => none

def CmpOp.ofTag : String → Option CmpOp
  | "lt" => some .lt
  | "le" => some .le
  | "gt" => some .gt
  | "ge" => some .ge
  | "eq" => some .eq
  | "ne" => some .ne
  | _ => none

def UnaryOp.ofTag : String → Option UnaryOp
  | "neg" => some .neg
  | "plus" => some .plus
  | _ => none

def MathFn.ofTag : String → Option MathFn
  | "sqrt" => some .sqrt
  | "abs" => some .abs
  | "exp" => some .exp
  | "log" => some .log
  | "sin" => some .sin
  | "cos" => some .cos
  | "tan" => some .tan
  | "floor" => some .floor
  | "ceil" => some .ceil
  | _ => none

/-! ## Scalars -/

/-- `i64`: a float or an unsigned integer behind the range is an error. -/
def decodeI64 : Json F → Option ℤ
  | .int n => if InI64 n then some n else none
  | _ => none

/-- `f64`; `asF64` is the cast of an integer. -/
def decodeF64 (asF64 : ℤ → F) : Json F → Option F
  | .float x => some x
  | .int n => some (asF64 n)
  | _ => none

def decodeTag {α : Type} (ofTag : String → Option α) (j : Json F) : Option α := j.str?.bind ofTag

/-! ## Nodes -/

section Nodes
variable (asF64 : ℤ → F)

/-- `Expr` -/
def decodeExpr : ℕ → Json F → Option (Expr F)
  | n + 1, .obj fields => do
    match ← (← field fields "kind").str? with
    | "param" => some .param
    | "local" => do some (.localVar (← (← field fields "name").str?))
    | "const_i64" => do some (.constI64 (← decodeI64 (← field fields "value")))
    | "const_f64" => do some (.constF64 (← decodeF64 asF64 (← field fields "value")))
    | "const_bool" => do some (.constBool (← (← field fields "value").bool?))
    | "bin_op" => do
      some (.binOp (← decodeTag BinOp.ofTag (← field fields "op"))
        (← decodeExpr n (← field fields "left")) (← decodeExpr n (← field fields "right")))
    | "unary" => do
      some (.unary (← decodeTag UnaryOp.ofTag (← field fields "op"))
        (← decodeExpr n (← field fields "operand")))
    | "compare" => do
      some (.compare (← decodeTag CmpOp.ofTag (← field fields "op"))
        (← decodeExpr n (← field fields "left")) (← decodeExpr n (← field fields "right")))
    | "if_expr" => do
      some (.ifExpr (← decodeExpr n (← field fields "test"))
        (← decodeExpr n (← field fields "yes")) (← decodeExpr n (← field fields "no")))
    | "math_call" => do
      some (.mathCall (← decodeTag MathFn.ofTag (← field fields "func"))
        (← decodeExpr n (← field fields "arg")))
    | "cast_to_i64" => do some (.castToI64 (← decodeExpr n (← field fields "value")))
    | "cast_to_f64" => do some (.castToF64 (← decodeExpr n (← field fields "value")))
    | _ => none
  | _, _ => none

/-- `Stmt` -/
def decodeStmt : ℕ → Json F → Option (Stmt F)
  | n + 1, .obj fields => do
    match ← (← field fields "kind").str? with
    | "assign" => do
      some (.assign (← (← field fields "name").str?)
        (← decodeTag Dtype.ofTag (← field fields "dtype"))
        (← decodeExpr asF64 n (← field fields "value")))
    | "for_range" => do
      some (.forRange (← (← field fields "var").str?)
        (← decodeExpr asF64 n (← field fields "start"))
        (← decodeExpr asF64 n (← field fields "end"))
        (← (← (← field fields "body").arr?).mapM (decodeStmt n)))
    | "while" => do
      some (.whileDo (← decodeExpr asF64 n (← field fields "cond"))
        (← (← (← field fields "body").arr?).mapM (decodeStmt n)))
    | "if" => do
      some (.ifElse (← decodeExpr asF64 n (← field fields "test"))
        (← (← (← field fields "then_body").arr?).mapM (decodeStmt n))
        (← (← (← field fields "else_body").arr?).mapM (decodeStmt n)))
    | "return" => do some (.ret (← decodeExpr asF64 n (← field fields "value")))
    | "break" => some .brk
    | "continue" => some .cont
    | _ => none
  | _, _ => none

/-- `Kernel` -/
def decodeKernel (limit : ℕ) : Json F → Option (Kernel F)
  | .obj fields => do
    some {
      inputDtype := ← decodeTag Dtype.ofTag (← field fields "input_dtype")
      outputDtype := ← decodeTag Dtype.ofTag (← field fields "output_dtype")
      body := ← (← (← field fields "body").arr?).mapM (decodeStmt asF64 limit) }
  | _ => none

end Nodes

end Gilmap
