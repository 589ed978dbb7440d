import Gilmap.Ir.Decode
import Gilmap.Python.TryCompile

/-! # The dicts of the walker

`_Walker` writes its IR as dicts, one literal a branch. `Walker.exprDict` and
`Walker.stmtDict` are its branches with these literals; they fail where `Walker.expr` and
`Walker.stmt` do, and otherwise they write down the same tree.
-/
namespace Gilmap
open Library Library.Json
variable {F : Type}

/-! ## The dict of a tree -/

def BinOp.tag : BinOp → String
  | .add => "add"
  | .sub => "sub"
  | .mul => "mul"
  | .div => "div"
  | .floorDiv => "floordiv"
  | .mod => "mod"
  | .pow => "pow"

def CmpOp.tag : CmpOp → String
  | .lt => "lt"
  | .le => "le"
  | .gt => "gt"
  | .ge => "ge"
  | .eq => "eq"
  | .ne => "ne"

def UnaryOp.tag : UnaryOp → String
  | .neg => "neg"
  | .plus => "plus"

def MathFn.tag : MathFn → String
  | .sqrt => "sqrt"
  | .abs => "abs"
  | .exp => "exp"
  | .log => "log"
  | .sin => "sin"
  | .cos => "cos"
  | .tan => "tan"
  | .floor => "floor"
  | .ceil => "ceil"

/-- `_cast` -/
def castDict (node : Json F) (target : Dtype) : Json F :=
  .obj [("kind", .str ("cast_to_" ++ dtypeTag target)), ("value", node)]

def Expr.toDict : Expr F → Json F
  | .param => .obj [("kind", .str "param")]
  | .localVar name => .obj [("kind", .str "local"), ("name", .str name)]
  | .constI64 value => .obj [("kind", .str "const_i64"), ("value", .int value)]
  | .constF64 value => .obj [("kind", .str "const_f64"), ("value", .float value)]
  | .constBool value => .obj [("kind", .str "const_bool"), ("value", .bool value)]
  | .binOp op left right =>
    .obj [("kind", .str "bin_op"), ("op", .str op.tag), ("left", left.toDict),
      ("right", right.toDict)]
  | .unary op operand =>
    .obj [("kind", .str "unary"), ("op", .str op.tag), ("operand", operand.toDict)]
  | .compare op left right =>
    .obj [("kind", .str "compare"), ("op", .str op.tag), ("left", left.toDict),
      ("right", right.toDict)]
  | .ifExpr test yes no =>
    .obj [("kind", .str "if_expr"), ("test", test.toDict), ("yes", yes.toDict), ("no", no.toDict)]
  | .mathCall func arg =>
    .obj [("kind", .str "math_call"), ("func", .str func.tag), ("arg", arg.toDict)]
  | .castToI64 value => castDict value.toDict .i64
  | .castToF64 value => castDict value.toDict .f64

mutual

def Stmt.toDict : Stmt F → Json F
  | .assign name dtype value =>
    .obj [("kind", .str "assign"), ("name", .str name), ("dtype", .str (dtypeTag dtype)),
      ("value", value.toDict)]
  | .forRange var start stop body =>
    .obj [("kind", .str "for_range"), ("var", .str var), ("start", start.toDict),
      ("end", stop.toDict), ("body", .arr (bodyDicts body))]
  | .whileDo cond body =>
    .obj [("kind", .str "while"), ("cond", cond.toDict), ("body", .arr (bodyDicts body))]
  | .ifElse test thenBody elseBody =>
    .obj [("kind", .str "if"), ("test", test.toDict), ("then_body", .arr (bodyDicts thenBody)),
      ("else_body", .arr (bodyDicts elseBody))]
  | .ret value => .obj [("kind", .str "return"), ("value", value.toDict)]
  | .brk => .obj [("kind", .str "break")]
  | .cont => .obj [("kind", .str "continue")]

def bodyDicts : List (Stmt F) → List (Json F)
  | [] => []
  | stmt :: rest => stmt.toDict :: bodyDicts rest

end

/-- The dict that `try_compile` dumps. -/
def Kernel.toDict (k : Kernel F) : Json F :=
  .obj [("input_dtype", .str (dtypeTag k.inputDtype)),
    ("output_dtype", .str (dtypeTag k.outputDtype)), ("body", .arr (bodyDicts k.body))]

/-! ## The walker with its literals -/

/-- `_BINOP_MAP` -/
def binOpTag : PyBinOp → Option String
  | .add => some "add"
  | .sub => some "sub"
  | .mult => some "mul"
  | .div => some "div"
  | .floorDiv => some "floordiv"
  | .mod => some "mod"
  | .pow => some "pow"
  | .matMult | .lShift | .rShift | .bitOr | .bitXor | .bitAnd => none

/-- `_CMP_MAP` -/
def cmpTag : PyCmpOp → Option String
  | .lt => some "lt"
  | .ltE => some "le"
  | .gt => some "gt"
  | .gtE => some "ge"
  | .eq => some "eq"
  | .notEq => some "ne"
  | .is | .isNot | .isIn | .notIn => none

/-- `_UNARY_MAP` -/
def unaryTag : PyUnaryOp → Option String
  | .uSub => some "neg"
  | .uAdd => some "plus"
  | .not | .invert => none

/-- `_MATH_MAP` -/
def mathTag : List (String × String) :=
  [("sqrt", "sqrt"), ("fabs", "abs"), ("abs", "abs"), ("exp", "exp"), ("log", "log"),
    ("sin", "sin"), ("cos", "cos"), ("tan", "tan"), ("floor", "floor"), ("ceil", "ceil")]

/-- `_promote` -/
def promoteDict (left : Json F) (lt : Dtype) (right : Json F) (rt : Dtype) :
    Json F × Json F × Dtype :=
  if lt = rt then (left, right, lt)
  else (if lt = .i64 then castDict left .f64 else left,
    if rt = .i64 then castDict right .f64 else right, .f64)

/-- The branch of `expr` for a `Name`. -/
def Walker.nameDict (w : Walker) (id : String) : Option (Json F × Dtype) :=
  if id = w.param then some (.obj [("kind", .str "param")], w.inputDtype)
  else
    match w.locals.lookup id with
    | some dt => some (.obj [("kind", .str "local"), ("name", .str id)], dt)
    | none => none

/-- `expr` -/
def Walker.exprDict (w : Walker) : PyExpr F → Option (Json F × Dtype)
  | .name id => w.nameDict id
  | .constant (.bool value) =>
    some (.obj [("kind", .str "const_bool"), ("value", .bool value)], .i64)
  | .constant (.int value) =>
    some (.obj [("kind", .str "const_i64"), ("value", .int value)], .i64)
  | .constant (.float value) =>
    some (.obj [("kind", .str "const_f64"), ("value", .float value)], .f64)
  | .constant _ => none
  | .unaryOp op operand => do
    let tag ← unaryTag op
    let (inner, dt) ← w.exprDict operand
    some (.obj [("kind", .str "unary"), ("op", .str tag), ("operand", inner)], dt)
  | .binOp left op right => do
    let tag ← binOpTag op
    let (left, lt) ← w.exprDict left
    let (right, rt) ← w.exprDict right
    let (left, right, resultDt) := promoteDict left lt right rt
    if (op = .floorDiv ∨ op = .mod) ∧ resultDt = .f64 then none
    else
      some (.obj [("kind", .str "bin_op"), ("op", .str tag), ("left", left), ("right", right)],
        resultDt)
  | .compare left [op] [comparator] => do
    let tag ← cmpTag op
    let (left, lt) ← w.exprDict left
    let (right, rt) ← w.exprDict comparator
    let (left, right, _) := promoteDict left lt right rt
    some (.obj [("kind", .str "compare"), ("op", .str tag), ("left", left), ("right", right)], .i64)
  | .compare _ _ _ => none
  | .ifExp test body orelse => do
    let (test, _) ← w.exprDict test
    let (yes, yt) ← w.exprDict body
    let (no, nt) ← w.exprDict orelse
    let (yes, no, rt) := promoteDict yes yt no nt
    some (.obj [("kind", .str "if_expr"), ("test", test), ("yes", yes), ("no", no)], rt)
  | .call (.attribute (.name "math") attr) [arg] [] => do
    let tag ← mathTag.lookup attr
    let (arg, at_) ← w.exprDict arg
    let arg := if at_ = .i64 then castDict arg .f64 else arg
    some (.obj [("kind", .str "math_call"), ("func", .str tag), ("arg", arg)], .f64)
  | .call (.name id) [arg] [] => do
    let (inner, it) ← w.exprDict arg
    if id = "int" then some (if it = .f64 then castDict inner .i64 else inner, .i64)
    else if id = "float" then some (if it = .i64 then castDict inner .f64 else inner, .f64)
    else none
  | .call _ _ _ => none
  | _ => none

/-- The bounds of a `for` statement. -/
def Walker.rangeDicts (w : Walker) : PyExpr F → Option (Json F × Json F)
  | .call (.name "range") [stop] [] => do
    let (stop, stopDt) ← w.exprDict stop
    some (.obj [("kind", .str "const_i64"), ("value", .int 0)],
      if stopDt = .f64 then castDict stop .i64 else stop)
  | .call (.name "range") [start, stop] [] => do
    let (start, startDt) ← w.exprDict start
    let (stop, stopDt) ← w.exprDict stop
    some (if startDt = .f64 then castDict start .i64 else start,
      if stopDt = .f64 then castDict stop .i64 else stop)
  | _ => none

/-- The branch of `stmt` for an `AugAssign` to the name `name`. -/
def Walker.augAssignDict (w : Walker) (name : String) (op : PyBinOp) (value : PyExpr F) :
    Option (Json F) := do
  let existingDt ← w.locals.lookup name
  let tag ← binOpTag op
  let (left, lt) ← w.nameDict name
  let (right, rt) ← w.exprDict value
  let (left, right, rdt) := promoteDict left lt right rt
  if rdt ≠ existingDt then none
  else
    let value :=
      .obj [("kind", .str "bin_op"), ("op", .str tag), ("left", left), ("right", right)]
    some (.obj [("kind", .str "assign"), ("name", .str name), ("dtype", .str (dtypeTag existingDt)),
      ("value", value)])

mutual

/-- `stmt` -/
def Walker.stmtDict (w : Walker) : PyStmt F → Option ((Json F × Bool) × Walker)
  | .assign [.name name] value => do
    let (value, dt) ← w.exprDict value
    some ((.obj [("kind", .str "assign"), ("name", .str name), ("dtype", .str (dtypeTag dt)),
      ("value", value)], false), w.bind name dt)
  | .assign _ _ => none
  | .augAssign (.name name) op value => do
    let ir ← w.augAssignDict name op value
    some ((ir, false), w)
  | .augAssign _ _ _ => none
  | .ret none => none
  | .ret (some value) => do
    let (value, dt) ← w.exprDict value
    let w ← (w.recordReturn dt).toOption
    some ((.obj [("kind", .str "return"), ("value", value)], true), w)
  | .ifStmt test body orelse => do
    let (test, _) ← w.exprDict test
    let ((thenIr, thenTerm), w) ← w.stmtDicts true body
    let ((elseIr, elseTerm), w) ← w.stmtDicts true orelse
    some ((.obj [("kind", .str "if"), ("test", test), ("then_body", .arr thenIr),
      ("else_body", .arr elseIr)], thenTerm && elseTerm), w)
  | .forStmt (.name var) iter body [] => do
    let (start, stop) ← w.rangeDicts iter
    let ((inner, _), w) ← (w.bind var .i64).stmtDicts true body
    some ((.obj [("kind", .str "for_range"), ("var", .str var), ("start", start), ("end", stop),
      ("body", .arr inner)], false), w)
  | .forStmt _ _ _ _ => none
  | .whileStmt test body [] => do
    let (cond, _) ← w.exprDict test
    let ((inner, _), w) ← w.stmtDicts true body
    some ((.obj [("kind", .str "while"), ("cond", cond), ("body", .arr inner)], false), w)
  | .whileStmt _ _ _ => none
  | .brk => some ((.obj [("kind", .str "break")], true), w)
  | .cont => some ((.obj [("kind", .str "continue")], true), w)
  | _ => none

/-- `stmts` -/
def Walker.stmtDicts (w : Walker) (first : Bool) :
    List (PyStmt F) → Option ((List (Json F) × Bool) × Walker)
  | [] => some (([], false), w)
  | stmt :: rest =>
    if first && stmt.isDocstring then w.stmtDicts false rest
    else do
      let ((ir, term), w) ← w.stmtDict stmt
      if term then some (([ir], true), w)
      else do
        let ((out, terminated), w) ← w.stmtDicts false rest
        some ((ir :: out, terminated), w)

end

/-- The dict that `try_compile` builds for a function. -/
def functionDict (inputDtype : Dtype) (node : FnNode F) : Option (Json F) :=
  let kernel (outDt : Dtype) (body : List (Json F)) : Json F :=
    .obj [("input_dtype", .str (dtypeTag inputDtype)), ("output_dtype", .str (dtypeTag outDt)),
      ("body", .arr body)]
  match node.params with
  | [param] =>
    let w := Walker.init param inputDtype
    match node with
    | .lambda _ body => do
      let (value, dt) ← w.exprDict body
      some (kernel dt [.obj [("kind", .str "return"), ("value", value)]])
    | .functionDef _ body => do
      let ((bodyIr, terminated), w) ← w.stmtDicts true body
      if terminated then some (kernel (w.outputDtype.getD inputDtype) bodyIr) else none
  | _ => none

/-! ## Both write the same tree -/

section Same
variable {w : Walker}

theorem binOpTag_eq (op : PyBinOp) : binOpTag op = (binOpMap op).map BinOp.tag := by
  cases op <;> rfl

theorem cmpTag_eq (op : PyCmpOp) : cmpTag op = (cmpMap op).map CmpOp.tag := by
  cases op <;> rfl

theorem unaryTag_eq (op : PyUnaryOp) : unaryTag op = (unaryMap op).map UnaryOp.tag := by
  cases op <;> rfl

theorem mathTag_eq (attr : String) : mathTag.lookup attr = (mathMap.lookup attr).map MathFn.tag := by
  have hmap : ∀ l : List (String × MathFn),
      (l.map fun p => (p.1, p.2.tag)).lookup attr = (l.lookup attr).map MathFn.tag := by
    intro l
    induction l with
    | nil => rfl
    | cons p rest ih =>
      obtain ⟨name, fn⟩ := p
      simp only [List.map_cons, List.lookup_cons, ih]
      cases attr == name <;> rfl
  exact hmap mathMap

theorem castDict_toDict (e : Expr F) (d : Dtype) : castDict e.toDict d = (castTo e d).toDict := by
  cases d <;> rfl

theorem promoteDict_toDict (l : Expr F) (lt : Dtype) (r : Expr F) (rt : Dtype) :
    promoteDict l.toDict lt r.toDict rt =
      ((promote l lt r rt).1.toDict, (promote l lt r rt).2.1.toDict, (promote l lt r rt).2.2) := by
  cases lt <;> cases rt <;> rfl

/-- A node with its dtype, written down. -/
def typedDict (p : Expr F × Dtype) : Json F × Dtype := (p.1.toDict, p.2)

/-- A step of both walkers. -/
theorem toOption_bind_map {α β γ δ : Type} {r : Except String α} {k : α → Except String β} {f : α → γ}
    {g : β → δ} {o : Option γ} {k' : γ → Option δ} (hr : o = r.toOption.map f)
    (hk : ∀ a, k' (f a) = (k a).toOption.map g) : o.bind k' = (r >>= k).toOption.map g := by
  subst hr
  cases r with
  | error e => rfl
  | ok a => exact hk a

theorem Walker.nameDict_eq (w : Walker) (id : String) :
    w.nameDict id = ((w.nameExpr id : Except String (Expr F × Dtype))).toOption.map typedDict := by
  unfold Walker.nameDict Walker.nameExpr
  split
  · rfl
  · cases w.locals.lookup id with
    | none => rfl
    | some dt => rfl

theorem Walker.exprDict_eq (w : Walker) : ∀ e : PyExpr F, w.exprDict e = (w.expr e).toOption.map typedDict
  | .name id => by
    simp only [Walker.exprDict, Walker.expr]
    exact w.nameDict_eq id
  | .constant c => by cases c <;> rfl
  | .unaryOp op operand => by
    simp only [Walker.exprDict, Walker.expr, unaryTag_eq]
    cases unaryMap op with
    | none => rfl
    | some irOp =>
      simp only [Option.map_some, Option.bind_eq_bind, Option.bind_some]
      exact toOption_bind_map (Walker.exprDict_eq w operand) fun _ => rfl
  | .binOp left op right => by
    simp only [Walker.exprDict, Walker.expr, binOpTag_eq]
    cases binOpMap op with
    | none => rfl
    | some irOp =>
      simp only [Option.map_some, Option.bind_eq_bind, Option.bind_some]
      apply toOption_bind_map (Walker.exprDict_eq w left)
      intro l
      apply toOption_bind_map (Walker.exprDict_eq w right)
      intro r
      simp only [typedDict, promoteDict_toDict]
      split <;> rfl
  | .compare left [op] [comparator] => by
    simp only [Walker.exprDict, Walker.expr, cmpTag_eq]
    cases cmpMap op with
    | none => rfl
    | some irOp =>
      simp only [Option.map_some, Option.bind_eq_bind, Option.bind_some]
      apply toOption_bind_map (Walker.exprDict_eq w left)
      intro l
      apply toOption_bind_map (Walker.exprDict_eq w comparator)
      intro r
      simp only [typedDict, promoteDict_toDict]
      rfl
  | .compare _ [] _ => rfl
  | .compare _ [_] [] => rfl
  | .compare _ [_] (_ :: _ :: _) => rfl
  | .compare _ (_ :: _ :: _) _ => rfl
  | .ifExp test body orelse => by
    simp only [Walker.exprDict, Walker.expr]
    apply toOption_bind_map (Walker.exprDict_eq w test)
    intro _
    apply toOption_bind_map (Walker.exprDict_eq w body)
    intro y
    apply toOption_bind_map (Walker.exprDict_eq w orelse)
    intro n
    simp only [typedDict, promoteDict_toDict]
    rfl
  | .call (.name id) [arg] [] => by
    simp only [Walker.exprDict, Walker.expr]
    apply toOption_bind_map (Walker.exprDict_eq w arg)
    intro p
    obtain ⟨inner, it⟩ := p
    simp only [typedDict, castDict_toDict]
    split
    · cases it <;> rfl
    · split
      · cases it <;> rfl
      · rfl
  | .call (.attribute (.name m) attr) [arg] [] => by
    by_cases hm : m = "math"
    · subst hm
      simp only [Walker.exprDict, Walker.expr, mathTag_eq]
      cases mathMap.lookup attr with
      | none => rfl
      | some fn =>
        simp only [Option.map_some, Option.bind_eq_bind, Option.bind_some]
        apply toOption_bind_map (Walker.exprDict_eq w arg)
        intro p
        obtain ⟨inner, it⟩ := p
        cases it <;> rfl
    · simp [Walker.exprDict, Walker.expr, hm, Except.toOption]
  | .call (.attribute (.constant _) _) [_] [] | .call (.attribute (.unaryOp _ _) _) [_] []
  | .call (.attribute (.binOp _ _ _) _) [_] [] | .call (.attribute (.compare _ _ _) _) [_] []
  | .call (.attribute (.ifExp _ _ _) _) [_] [] | .call (.attribute (.call _ _ _) _) [_] []
  | .call (.attribute (.attribute _ _) _) [_] [] | .call (.attribute (.other _) _) [_] []
  | .call (.constant _) [_] [] | .call (.unaryOp _ _) [_] [] | .call (.binOp _ _ _) [_] []
  | .call (.compare _ _ _) [_] [] | .call (.ifExp _ _ _) [_] [] | .call (.call _ _ _) [_] []
  | .call (.other _) [_] [] | .call _ [] _ | .call _ (_ :: _ :: _) _ | .call _ [_] (_ :: _) => by
    simp [Walker.exprDict, Walker.expr, Except.toOption]
  | .attribute _ _ => rfl
  | .other _ => rfl

theorem Walker.rangeDicts_eq (w : Walker) (iter : PyExpr F) :
    w.rangeDicts iter = (w.rangeBounds iter).toOption.map fun p => (p.1.toDict, p.2.toDict) := by
  unfold Walker.rangeDicts
  split
  · simp only [Walker.rangeBounds]
    apply toOption_bind_map (w.exprDict_eq _)
    intro stop
    simp only [typedDict, castDict_toDict]
    split <;> rfl
  · simp only [Walker.rangeBounds]
    apply toOption_bind_map (w.exprDict_eq _)
    intro start
    apply toOption_bind_map (w.exprDict_eq _)
    intro stop
    simp only [typedDict, castDict_toDict]
    split <;> split <;> rfl
  · rename_i hone htwo
    rw [Walker.rangeBounds]
    · rfl
    · exact hone
    · exact htwo

theorem Walker.augAssignDict_eq (w : Walker) (name : String) (op : PyBinOp) (value : PyExpr F) :
    w.augAssignDict name op value = (w.augAssign name op value).toOption.map Stmt.toDict := by
  unfold Walker.augAssignDict Walker.augAssign
  cases w.locals.lookup name with
  | none => rfl
  | some existingDt =>
    simp only [binOpTag_eq, Option.bind_eq_bind, Option.bind_some]
    cases binOpMap op with
    | none => rfl
    | some irOp =>
      simp only [Option.map_some, Option.bind_some]
      apply toOption_bind_map (w.nameDict_eq name)
      intro l
      apply toOption_bind_map (w.exprDict_eq value)
      intro r
      simp only [typedDict, promoteDict_toDict]
      split <;> rfl

/-- A statement with what `stmt` returns beside it, written down. -/
def statementDict (p : (Stmt F × Bool) × Walker) : (Json F × Bool) × Walker :=
  ((p.1.1.toDict, p.1.2), p.2)

def statementDicts (p : (List (Stmt F) × Bool) × Walker) : (List (Json F) × Bool) × Walker :=
  ((bodyDicts p.1.1, p.1.2), p.2)

mutual

theorem Walker.stmtDict_eq (w : Walker) :
    ∀ stmt : PyStmt F, w.stmtDict stmt = (w.stmt stmt).toOption.map statementDict
  | .assign [.name name] value => by
    simp only [Walker.stmtDict, Walker.stmt]
    exact toOption_bind_map (w.exprDict_eq value) fun _ => rfl
  | .assign (target :: _ :: _) _ => by cases target <;> rfl
  | .assign [] _ | .assign [.constant _] _ | .assign [.unaryOp _ _] _ | .assign [.binOp _ _ _] _
  | .assign [.compare _ _ _] _ | .assign [.ifExp _ _ _] _ | .assign [.call _ _ _] _
  | .assign [.attribute _ _] _ | .assign [.other _] _ => rfl
  | .augAssign (.name name) op value => by
    simp only [Walker.stmtDict, Walker.stmt]
    exact toOption_bind_map (w.augAssignDict_eq name op value) fun _ => rfl
  | .augAssign (.constant _) _ _ | .augAssign (.unaryOp _ _) _ _ | .augAssign (.binOp _ _ _) _ _
  | .augAssign (.compare _ _ _) _ _ | .augAssign (.ifExp _ _ _) _ _ | .augAssign (.call _ _ _) _ _
  | .augAssign (.attribute _ _) _ _ | .augAssign (.other _) _ _ => rfl
  | .ret none => rfl
  | .ret (some value) => by
    simp only [Walker.stmtDict, Walker.stmt]
    apply toOption_bind_map (w.exprDict_eq value)
    intro p
    exact toOption_bind_map (f := id) (by rw [Option.map_id]; rfl) fun _ => rfl
  | .ifStmt test body orelse => by
    simp only [Walker.stmtDict, Walker.stmt]
    apply toOption_bind_map (w.exprDict_eq test)
    intro _
    apply toOption_bind_map (stmtDicts_eq w true body)
    intro p
    exact toOption_bind_map (stmtDicts_eq p.2 true orelse) fun _ => rfl
  | .forStmt (.name var) iter body [] => by
    simp only [Walker.stmtDict, Walker.stmt]
    apply toOption_bind_map (w.rangeDicts_eq iter)
    intro _
    exact toOption_bind_map (stmtDicts_eq (w.bind var .i64) true body) fun _ => rfl
  | .forStmt (.name _) _ _ (_ :: _) | .forStmt (.constant _) _ _ _ | .forStmt (.unaryOp _ _) _ _ _
  | .forStmt (.binOp _ _ _) _ _ _ | .forStmt (.compare _ _ _) _ _ _ | .forStmt (.ifExp _ _ _) _ _ _
  | .forStmt (.call _ _ _) _ _ _ | .forStmt (.attribute _ _) _ _ _ | .forStmt (.other _) _ _ _ => rfl
  | .whileStmt test body [] => by
    simp only [Walker.stmtDict, Walker.stmt]
    apply toOption_bind_map (w.exprDict_eq test)
    intro _
    exact toOption_bind_map (stmtDicts_eq w true body) fun _ => rfl
  | .whileStmt _ _ (_ :: _) => rfl
  | .brk => rfl
  | .cont => rfl
  | .exprStmt _ => rfl
  | .other _ => rfl

theorem Walker.stmtDicts_eq (w : Walker) (first : Bool) :
    ∀ body : List (PyStmt F), w.stmtDicts first body = (w.stmts first body).toOption.map statementDicts
  | [] => rfl
  | stmt :: rest => by
    simp only [Walker.stmtDicts, Walker.stmts]
    split
    · exact stmtDicts_eq w false rest
    · apply toOption_bind_map (stmtDict_eq w stmt)
      intro p
      obtain ⟨⟨ir, term⟩, w'⟩ := p
      simp only [statementDict]
      cases term with
      | true => rfl
      | false => exact toOption_bind_map (stmtDicts_eq w' false rest) fun _ => rfl

end

/-- The dict of a function is that of its kernel. -/
theorem functionDict_eq (d : Dtype) (node : FnNode F) :
    functionDict d node = (walkFunction d node).map Kernel.toDict := by
  unfold functionDict walkFunction
  cases node.params with
  | nil => rfl
  | cons param rest =>
    cases rest with
    | cons _ _ => rfl
    | nil =>
      cases node with
      | lambda ps body =>
        simp only [Walker.exprDict_eq]
        cases (Walker.init param d).expr body with
        | error e => rfl
        | ok p => rfl
      | functionDef ps body =>
        simp only [Walker.stmtDicts_eq]
        cases (Walker.init param d).stmts true body with
        | error e => rfl
        | ok p =>
          obtain ⟨⟨body, terminated⟩, w⟩ := p
          cases terminated <;> rfl

end Same

end Gilmap
