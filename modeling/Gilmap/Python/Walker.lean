import Gilmap.Python.Syntax

/-! # The walker

`_Walker` of `gilmap/_jit.py`: from a Python body to the IR, with one dtype for each
expression. Its two mutable fields, the dtypes of the locals seen so far and the output
dtype, are passed along. An error is the text of the `_LowerError`.
-/
namespace Gilmap
variable {F : Type}

def binOpMap : PyBinOp → Option BinOp
  | .add => some .add
  | .sub => some .sub
  | .mult => some .mul
  | .div => some .div
  | .floorDiv => some .floorDiv
  | .mod => some .mod
  | .pow => some .pow
  | .matMult | .lShift | .rShift | .bitOr | .bitXor | .bitAnd => none

def cmpMap : PyCmpOp → Option CmpOp
  | .lt => some .lt
  | .ltE => some .le
  | .gt => some .gt
  | .gtE => some .ge
  | .eq => some .eq
  | .notEq => some .ne
  | .is | .isNot | .isIn | .notIn => none

def unaryMap : PyUnaryOp → Option UnaryOp
  | .uSub => some .neg
  | .uAdd => some .plus
  | .not | .invert => none

def mathMap : List (String × MathFn) :=
  [("sqrt", .sqrt), ("fabs", .abs), ("abs", .abs), ("exp", .exp), ("log", .log), ("sin", .sin),
    ("cos", .cos), ("tan", .tan), ("floor", .floor), ("ceil", .ceil)]

/-- `_cast` -/
def castTo (node : Expr F) : Dtype → Expr F
  | .i64 => .castToI64 node
  | .f64 => .castToF64 node

/-- `_promote`: f64 wins over i64. -/
def promote (left : Expr F) (lt : Dtype) (right : Expr F) (rt : Dtype) : Expr F × Expr F × Dtype :=
  if lt = rt then (left, right, lt)
  else (if lt = .i64 then castTo left .f64 else left, if rt = .i64 then castTo right .f64 else right,
    .f64)

/-- The fields of `_Walker`. -/
structure Walker where
  param : String
  inputDtype : Dtype
  locals : List (String × Dtype)
  outputDtype : Option Dtype

def Walker.init (param : String) (inputDtype : Dtype) : Walker := ⟨param, inputDtype, [], none⟩

/-- `self.locals[name] = dt` -/
def Walker.bind (w : Walker) (name : String) (dt : Dtype) : Walker :=
  { w with locals := (name, dt) :: w.locals }

def dtypeTag : Dtype → String
  | .i64 => "i64"
  | .f64 => "f64"

def callError : String :=
  "only math.<sqrt|abs|exp|log|sin|cos|tan|floor|ceil>(arg), int(x), or float(x) calls supported"

def rangeError : String := "only `for var in range(end)` or `range(start, end)` supported"

/-- The branch of `expr` for a `Name`. -/
def Walker.nameExpr (w : Walker) (id : String) : Except String (Expr F × Dtype) :=
  if id = w.param then .ok (.param, w.inputDtype)
  else
    match w.locals.lookup id with
    | some dt => .ok (.localVar id, dt)
    | none => .error s!"unknown name '{id}' (free var or unassigned)"

/-- `expr`: the IR node and its dtype. -/
def Walker.expr (w : Walker) : PyExpr F → Except String (Expr F × Dtype)
  | .name id => w.nameExpr id
  | .constant (.bool value) => .ok (.constBool value, .i64)
  | .constant (.int value) => .ok (.constI64 value, .i64)
  | .constant (.float value) => .ok (.constF64 value, .f64)
  | .constant c => .error s!"unsupported constant {c.typeName}"
  | .unaryOp op operand =>
    match unaryMap op with
    | none => .error s!"unary op {op.className} not supported"
    | some irOp => do
      let (inner, dt) ← w.expr operand
      .ok (.unary irOp inner, dt)
  | .binOp left op right =>
    match binOpMap op with
    | none => .error s!"binop {op.className} not supported"
    | some irOp => do
      let (left, lt) ← w.expr left
      let (right, rt) ← w.expr right
      let (left, right, resultDt) := promote left lt right rt
      if (op = .floorDiv ∨ op = .mod) ∧ resultDt = .f64 then
        .error "f64 floor/mod not supported in JIT"
      else .ok (.binOp irOp left right, resultDt)
  | .compare left [op] [comparator] =>
    match cmpMap op with
    | none => .error "comparison op not supported"
    | some irOp => do
      let (left, lt) ← w.expr left
      let (right, rt) ← w.expr comparator
      let (left, right, _) := promote left lt right rt
      .ok (.compare irOp left right, .i64)
  | .compare _ _ _ => .error "chained comparisons not supported"
  | .ifExp test body orelse => do
    let (test, _) ← w.expr test
    let (yes, yt) ← w.expr body
    let (no, nt) ← w.expr orelse
    let (yes, no, rt) := promote yes yt no nt
    .ok (.ifExpr test yes no, rt)
  | .call (.attribute (.name "math") attr) [arg] [] =>
    match mathMap.lookup attr with
    | none => .error callError
    | some func => do
      let (arg, at_) ← w.expr arg
      .ok (.mathCall func (if at_ = .i64 then castTo arg .f64 else arg), .f64)
  | .call (.name id) [arg] [] => do
    let (inner, it) ← w.expr arg
    if id = "int" then .ok (if it = .f64 then castTo inner .i64 else inner, .i64)
    else if id = "float" then .ok (if it = .i64 then castTo inner .f64 else inner, .f64)
    else .error callError
  | .call _ _ _ => .error callError
  | node => .error s!"AST node {node.className} not supported in JIT"

/-- `_record_return` -/
def Walker.recordReturn (w : Walker) (dt : Dtype) : Except String Walker :=
  match w.outputDtype with
  | none => .ok { w with outputDtype := some dt }
  | some out =>
    if out ≠ dt then
      .error s!"return-type mismatch: kernel sets {dtypeTag out} then {dtypeTag dt}"
    else .ok w

/-- The bounds of a `for` statement over `range(end)` or `range(start, end)`. -/
def Walker.rangeBounds (w : Walker) : PyExpr F → Except String (Expr F × Expr F)
  | .call (.name "range") [stop] [] => do
    let (stop, stopDt) ← w.expr stop
    .ok (.constI64 0, if stopDt = .f64 then castTo stop .i64 else stop)
  | .call (.name "range") [start, stop] [] => do
    let (start, startDt) ← w.expr start
    let (stop, stopDt) ← w.expr stop
    .ok (if startDt = .f64 then castTo start .i64 else start,
      if stopDt = .f64 then castTo stop .i64 else stop)
  | _ => .error rangeError

/-- The branch of `stmt` for an `AugAssign` to the name `name`. -/
def Walker.augAssign (w : Walker) (name : String) (op : PyBinOp) (value : PyExpr F) :
    Except String (Stmt F) :=
  match w.locals.lookup name with
  | none => .error s!"augassign on unknown local '{name}'"
  | some existingDt =>
    match binOpMap op with
    | none => .error "augassign op not supported"
    | some irOp => do
      let (left, lt) ← w.nameExpr name
      let (right, rt) ← w.expr value
      let (left, right, rdt) := promote left lt right rt
      if rdt ≠ existingDt then
        .error (s!"augassign would change type of '{name}' " ++
          s!"from {dtypeTag existingDt} to {dtypeTag rdt}")
      else .ok (.assign name existingDt (.binOp irOp left right))

mutual

/-- `stmt`: the IR statement and whether control cannot pass it. -/
def Walker.stmt (w : Walker) : PyStmt F → Except String ((Stmt F × Bool) × Walker)
  | .assign [.name name] value => do
    let (value, dt) ← w.expr value
    .ok ((.assign name dt value, false), w.bind name dt)
  | .assign _ _ => .error "only single-name assignments supported"
  | .augAssign (.name name) op value => do
    let ir ← w.augAssign name op value
    .ok ((ir, false), w)
  | .augAssign _ _ _ => .error "augassign target must be a Name"
  | .ret none => .error "return with no value not supported"
  | .ret (some value) => do
    let (value, dt) ← w.expr value
    let w ← w.recordReturn dt
    .ok ((.ret value, true), w)
  | .ifStmt test body orelse => do
    let (test, _) ← w.expr test
    let ((thenIr, thenTerm), w) ← w.stmts true body
    let ((elseIr, elseTerm), w) ← w.stmts true orelse
    .ok ((.ifElse test thenIr elseIr, thenTerm && elseTerm), w)
  | .forStmt (.name var) iter body [] => do
    let (start, stop) ← w.rangeBounds iter
    let ((inner, _), w) ← (w.bind var .i64).stmts true body
    .ok ((.forRange var start stop inner, false), w)
  | .forStmt (.name _) _ _ _ => .error "for-loop else clause not supported"
  | .forStmt _ _ _ _ => .error "for-loop target must be a Name"
  | .whileStmt test body [] => do
    let (cond, _) ← w.expr test
    let ((inner, _), w) ← w.stmts true body
    .ok ((.whileDo cond inner, false), w)
  | .whileStmt _ _ _ => .error "while-else not supported"
  | .brk => .ok ((.brk, true), w)
  | .cont => .ok ((.cont, true), w)
  | node => .error s!"statement {node.className} not supported in JIT"

/-- `stmts`: the statements up to the first one that terminates; `first` says that a
docstring may still come. -/
def Walker.stmts (w : Walker) (first : Bool) :
    List (PyStmt F) → Except String ((List (Stmt F) × Bool) × Walker)
  | [] => .ok (([], false), w)
  | stmt :: rest =>
    if first && stmt.isDocstring then w.stmts false rest
    else do
      let ((ir, term), w) ← w.stmt stmt
      if term then .ok (([ir], true), w)
      else do
        let ((out, terminated), w) ← w.stmts false rest
        .ok ((ir :: out, terminated), w)

end

end Gilmap
