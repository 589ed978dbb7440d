import Gilmap.Jit.Lower
import Gilmap.Python.Walker

/-! # What Python makes of a function

Python's own evaluation of the bodies that the walker accepts: integers are unbounded, the
type of a result depends on the values, a ternary evaluates one arm, and `for` runs over a
fixed range. Constructs that the walker never accepts are not modelled.
-/
namespace Gilmap
variable {F : Type}

/-! ## Values -/

inductive PyExc
  | zeroDivisionError
  | unboundLocalError (name : String)
  | typeError
  | attributeError
  | valueError
  | overflowError
  /-- Not an exception: outside of the model. -/
  | unmodelled
  deriving DecidableEq, Repr

inductive PyVal (F : Type)
  | int (n : ℤ)
  | bool (b : Bool)
  | float (x : F)
  /-- what `**` gives for a negative base; arithmetic on it is not modelled -/
  | complex
  deriving DecidableEq, Repr

inductive PyNum (F : Type)
  | int (n : ℤ)
  | float (x : F)
  deriving DecidableEq, Repr

/-- Booleans are integers. -/
def PyVal.num : PyVal F → Except PyExc (PyNum F)
  | .int n => .ok (.int n)
  | .bool b => .ok (.int b.toInt)
  | .float x => .ok (.float x)
  | .complex => .error .unmodelled

def PyVal.isFloat : PyVal F → Bool
  | .float _ => true
  | .int _ | .bool _ | .complex => false

/-- The value is an `int` or a `bool`. -/
def PyVal.isInt : PyVal F → Bool
  | .int _ | .bool _ => true
  | .float _ | .complex => false

/-- Python's floats and `math`, beyond the arithmetic that they share with the machine. -/
structure PyFloats (F : Type) where
  fl : FloatOps F
  /-- `float(n)` -/
  ofInt : ℤ → Except PyExc F
  /-- `int(x)` -/
  toInt : F → Except PyExc ℤ
  /-- `n / m` for `m` other than zero -/
  divInts : ℤ → ℤ → Except PyExc F
  floorDiv : F → F → F
  mod : F → F → F
  /-- `x ** y`, with `none` for a complex number -/
  pow : F → F → Except PyExc (Option F)
  /-- `n <op> x`, which compares the exact values -/
  cmpInt : CmpOp → ℤ → F → Bool
  floor : F → Except PyExc ℤ
  ceil : F → Except PyExc ℤ
  /-- the other functions of `math` -/
  math : MathFn → PyNum F → Except PyExc F

namespace PyFloats
variable (py : PyFloats F)

def isZero (x : F) : Bool := py.fl.cmp .eq x py.fl.zero

def powFloats (x y : F) : Except PyExc (PyVal F) :=
  (py.pow x y).map fun
    | some z => .float z
    | none => .complex

def intOp (op : BinOp) (a b : ℤ) : Except PyExc (PyVal F) :=
  match op with
  | .add => .ok (.int (a + b))
  | .sub => .ok (.int (a - b))
  | .mul => .ok (.int (a * b))
  | .div => if b = 0 then .error .zeroDivisionError else (py.divInts a b).map .float
  | .floorDiv => if b = 0 then .error .zeroDivisionError else .ok (.int (a.fdiv b))
  | .mod => if b = 0 then .error .zeroDivisionError else .ok (.int (a.fmod b))
  | .pow =>
    if 0 ≤ b then .ok (.int (a ^ b.toNat))
    else do py.powFloats (← py.ofInt a) (← py.ofInt b)

def floatOp (op : BinOp) (x y : F) : Except PyExc (PyVal F) :=
  match op with
  | .add => .ok (.float (py.fl.bin .fadd x y))
  | .sub => .ok (.float (py.fl.bin .fsub x y))
  | .mul => .ok (.float (py.fl.bin .fmul x y))
  | .div => if py.isZero y then .error .zeroDivisionError else .ok (.float (py.fl.bin .fdiv x y))
  | .floorDiv => if py.isZero y then .error .zeroDivisionError else .ok (.float (py.floorDiv x y))
  | .mod => if py.isZero y then .error .zeroDivisionError else .ok (.float (py.mod x y))
  | .pow => py.powFloats x y

def numToFloat : PyNum F → Except PyExc F
  | .int n => py.ofInt n
  | .float x => .ok x

def binOp (op : BinOp) (l r : PyVal F) : Except PyExc (PyVal F) := do
  match ← l.num, ← r.num with
  | .int a, .int b => py.intOp op a b
  | l, r => do py.floatOp op (← py.numToFloat l) (← py.numToFloat r)

def unary (op : UnaryOp) (v : PyVal F) : Except PyExc (PyVal F) := do
  match op, ← v.num with
  | .neg, .int n => .ok (.int (-n))
  | .neg, .float x => .ok (.float (py.fl.neg x))
  | .plus, .int n => .ok (.int n)
  | .plus, .float x => .ok (.float x)

end PyFloats

def CmpOp.onInts : CmpOp → ℤ → ℤ → Bool
  | .lt, a, b => decide (a < b)
  | .le, a, b => decide (a ≤ b)
  | .gt, a, b => decide (b < a)
  | .ge, a, b => decide (b ≤ a)
  | .eq, a, b => decide (a = b)
  | .ne, a, b => decide (a ≠ b)

/-- The comparison with its operands exchanged. -/
def CmpOp.flip : CmpOp → CmpOp
  | .lt => .gt
  | .le => .ge
  | .gt => .lt
  | .ge => .le
  | .eq => .eq
  | .ne => .ne

namespace PyFloats
variable (py : PyFloats F)

def compare (op : CmpOp) (l r : PyVal F) : Except PyExc Bool := do
  match ← l.num, ← r.num with
  | .int a, .int b => .ok (op.onInts a b)
  | .float x, .float y => .ok (py.fl.cmp op.floatCC x y)
  | .int a, .float y => .ok (py.cmpInt op a y)
  | .float x, .int b => .ok (py.cmpInt op.flip b x)

def truthy (v : PyVal F) : Except PyExc Bool := do
  match ← v.num with
  | .int n => .ok (decide (n ≠ 0))
  | .float x => .ok (py.fl.cmp .ne x py.fl.zero)

/-- `int(v)` -/
def toPyInt : PyVal F → Except PyExc (PyVal F)
  | .int n => .ok (.int n)
  | .bool b => .ok (.int b.toInt)
  | .float x => (py.toInt x).map .int
  | .complex => .error .typeError

/-- `float(v)` -/
def toPyFloat : PyVal F → Except PyExc (PyVal F)
  | .int n => (py.ofInt n).map .float
  | .bool b => (py.ofInt b.toInt).map .float
  | .float x => .ok (.float x)
  | .complex => .error .typeError

def mathCall (fn : MathFn) (v : PyVal F) : Except PyExc (PyVal F) := do
  match fn, ← v.num with
  | .floor, .int n | .ceil, .int n => .ok (.int n)
  | .floor, .float x => (py.floor x).map .int
  | .ceil, .float x => (py.ceil x).map .int
  | fn, n => (py.math fn n).map .float

end PyFloats

/-! ## Expressions -/

/-- The local names of a function and the values of those that are bound. -/
structure PyFrame (F : Type) where
  scope : List String
  vals : String → Option (PyVal F)

def PyFrame.read (fr : PyFrame F) (name : String) : Except PyExc (PyVal F) :=
  match fr.vals name with
  | some v => .ok v
  | none => .error (.unboundLocalError name)

def PyFrame.bind (fr : PyFrame F) (name : String) (v : PyVal F) : PyFrame F :=
  { fr with vals := Function.update fr.vals name (some v) }

/-- A use of the global `name`; a local of that name hides it, and the use fails. -/
def PyFrame.useGlobal (fr : PyFrame F) (name : String) (e : PyExc) : Except PyExc Unit :=
  if name ∈ fr.scope then do
    let _ ← fr.read name
    .error e
  else .ok ()

def PyFloats.eval (py : PyFloats F) (fr : PyFrame F) : PyExpr F → Except PyExc (PyVal F)
  | .name id => fr.read id
  | .constant (.bool value) => .ok (.bool value)
  | .constant (.int value) => .ok (.int value)
  | .constant (.float value) => .ok (.float value)
  | .unaryOp op operand =>
    match unaryMap op with
    | none => .error .unmodelled
    | some irOp => do py.unary irOp (← py.eval fr operand)
  | .binOp left op right =>
    match binOpMap op with
    | none => .error .unmodelled
    | some irOp => do py.binOp irOp (← py.eval fr left) (← py.eval fr right)
  | .compare left [op] [comparator] =>
    match cmpMap op with
    | none => .error .unmodelled
    | some irOp => do
      .ok (.bool (← py.compare irOp (← py.eval fr left) (← py.eval fr comparator)))
  | .ifExp test body orelse => do
    if ← py.truthy (← py.eval fr test) then py.eval fr body else py.eval fr orelse
  | .call (.attribute (.name "math") attr) [arg] [] =>
    match mathMap.lookup attr with
    | none => .error .unmodelled
    | some fn => do
      fr.useGlobal "math" .attributeError
      -- the module has `fabs` only
      if attr = "abs" then .error .attributeError else py.mathCall fn (← py.eval fr arg)
  | .call (.name "int") [arg] [] => do
    fr.useGlobal "int" .typeError
    py.toPyInt (← py.eval fr arg)
  | .call (.name "float") [arg] [] => do
    fr.useGlobal "float" .typeError
    py.toPyFloat (← py.eval fr arg)
  | _ => .error .unmodelled

/-! ## Statements -/

inductive PyFlow (F : Type)
  | normal (fr : PyFrame F)
  | brk (fr : PyFrame F)
  | cont (fr : PyFrame F)
  | ret (v : PyVal F)

/-- `none`: out of fuel. -/
abbrev PyRes (F : Type) := Option (Except PyExc (PyFlow F))

def PyRes.loopNext (r : PyRes F) (again : PyFrame F → PyRes F) : PyRes F :=
  match r with
  | some (.ok (.normal fr)) => again fr
  | some (.ok (.cont fr)) => again fr
  | some (.ok (.brk fr)) => some (.ok (.normal fr))
  | r => r

def PyRes.andThen (r : PyRes F) (k : PyFrame F → PyRes F) : PyRes F :=
  match r with
  | some (.ok (.normal fr)) => k fr
  | r => r

/-- What `range` takes as a bound. -/
def PyVal.index : PyVal F → Except PyExc ℤ
  | .int n => .ok n
  | .bool b => .ok b.toInt
  | .float _ | .complex => .error .typeError

namespace PyFloats
variable (py : PyFloats F)

/-- The bounds of the range that a `for` runs over. -/
def range (fr : PyFrame F) : PyExpr F → Except PyExc (ℤ × ℤ)
  | .call (.name "range") [stop] [] => do
    fr.useGlobal "range" .typeError
    .ok (0, ← (← py.eval fr stop).index)
  | .call (.name "range") [start, stop] [] => do
    fr.useGlobal "range" .typeError
    let start ← py.eval fr start
    let stop ← py.eval fr stop
    .ok (← start.index, ← stop.index)
  | _ => .error .unmodelled

/-- The turns of a `for` that are left, the first of them with the value `i`. -/
def forLoop (var : String) (body : PyFrame F → PyRes F) : ℕ → ℤ → PyFrame F → PyRes F
  | 0, _, fr => some (.ok (.normal fr))
  | n + 1, i, fr => PyRes.loopNext (body (fr.bind var (.int i))) (forLoop var body n (i + 1))

def whileLoop (test : PyExpr F) (body : PyFrame F → PyRes F) : ℕ → PyFrame F → PyRes F
  | 0, _ => none
  | n + 1, fr =>
    match py.eval fr test >>= py.truthy with
    | .error e => some (.error e)
    | .ok false => some (.ok (.normal fr))
    | .ok true => PyRes.loopNext (body fr) (whileLoop test body n)

mutual

def execStmt (fuel : ℕ) : PyStmt F → PyFrame F → PyRes F
  | .assign [.name name] value, fr =>
    match py.eval fr value with
    | .error e => some (.error e)
    | .ok v => some (.ok (.normal (fr.bind name v)))
  | .augAssign (.name name) op value, fr =>
    match py.eval fr (.binOp (.name name) op value) with
    | .error e => some (.error e)
    | .ok v => some (.ok (.normal (fr.bind name v)))
  | .ret (some value), fr =>
    match py.eval fr value with
    | .error e => some (.error e)
    | .ok v => some (.ok (.ret v))
  | .ifStmt test body orelse, fr =>
    match py.eval fr test >>= py.truthy with
    | .error e => some (.error e)
    | .ok true => execBody fuel body fr
    | .ok false => execBody fuel orelse fr
  | .forStmt (.name var) iter body [], fr =>
    match py.range fr iter with
    | .error e => some (.error e)
    | .ok (start, stop) => forLoop var (execBody fuel body) (stop - start).toNat start fr
  | .whileStmt test body [], fr => py.whileLoop test (execBody fuel body) fuel fr
  | .brk, fr => some (.ok (.brk fr))
  | .cont, fr => some (.ok (.cont fr))
  | .exprStmt (.constant (.str _)), fr => some (.ok (.normal fr))
  | _, _ => some (.error .unmodelled)

def execBody (fuel : ℕ) : List (PyStmt F) → PyFrame F → PyRes F
  | [], fr => some (.ok (.normal fr))
  | stmt :: rest, fr => PyRes.andThen (execStmt fuel stmt fr) (execBody fuel rest)

end

end PyFloats

/-! ## Calls -/

mutual

/-- The names that a statement binds, wherever in it. -/
def PyStmt.binds : PyStmt F → List String
  | .assign targets _ => targets.flatMap fun
    | .name id => [id]
    | _ => []
  | .augAssign (.name id) _ _ => [id]
  | .ifStmt _ body orelse => bodyBinds body ++ bodyBinds orelse
  | .forStmt (.name id) _ body orelse => id :: (bodyBinds body ++ bodyBinds orelse)
  | .whileStmt _ body orelse => bodyBinds body ++ bodyBinds orelse
  | _ => []

def bodyBinds : List (PyStmt F) → List String
  | [] => []
  | stmt :: rest => stmt.binds ++ bodyBinds rest

end

/-- The frame of a call: the parameter is bound, the other locals are not. -/
def FnNode.frame (node : FnNode F) (param : String) (x : PyVal F) : PyFrame F where
  scope := param :: match node with
    | .functionDef _ body => bodyBinds body
    | .lambda _ _ => []
  vals name := if name = param then some x else none

/-- A call of a function of one argument; `none` in the result is Python's `None`. -/
def PyFloats.call (py : PyFloats F) (fuel : ℕ) (node : FnNode F) (x : PyVal F) :
    Option (Except PyExc (Option (PyVal F))) :=
  match node with
  | .lambda [param] body => some ((py.eval (node.frame param x) body).map some)
  | .functionDef [param] body =>
    (py.execBody fuel body (node.frame param x)).map fun
      | .error e => .error e
      | .ok (.ret v) => .ok (some v)
      | .ok (.normal _) => .ok none
      | .ok _ => .error .unmodelled
  | _ => some (.error .typeError)

/-- The call raises, whatever the fuel says about loops behind it. -/
def PyFloats.Raises (py : PyFloats F) (node : FnNode F) (x : PyVal F) : Prop :=
  ∃ fuel e, e ≠ .unmodelled ∧ py.call fuel node x = some (.error e)

end Gilmap
