import Gilmap.Jit.Compile
import Gilmap.Python.Walker

/-! # `try_compile`

The walker, the JSON text between the two languages, and the code generator behind it.
The JSON libraries are taken to round-trip what they accept: decoding fails on integers
outside `i64`, on floats without a JSON form and on texts nested too deeply, and changes
nothing else. Two limits of the interpreter are left out: `json.dumps` raises `ValueError`,
which nothing handles, for an integer with more decimal digits than Python prints, and the walker
raises `RecursionError`, which is no rejection either, on a body nested deeper than the stack.
-/
namespace Gilmap
variable {F : Type}

/-! ## What decodes -/

/-- Nesting of JSON objects and arrays. -/
def Expr.jsonDepth : Expr F → ℕ
  | .param | .localVar _ | .constI64 _ | .constF64 _ | .constBool _ => 1
  | .unary _ e | .mathCall _ e | .castToI64 e | .castToF64 e => e.jsonDepth + 1
  | .binOp _ l r | .compare _ l r => max l.jsonDepth r.jsonDepth + 1
  | .ifExpr c x y => max c.jsonDepth (max x.jsonDepth y.jsonDepth) + 1

def Expr.decodes (fl : FloatOps F) : Expr F → Bool
  | .param | .localVar _ | .constBool _ => true
  | .constI64 value => decide (-2 ^ 63 ≤ value ∧ value < 2 ^ 63)
  | .constF64 value => fl.isFinite value
  | .unary _ e | .mathCall _ e | .castToI64 e | .castToF64 e => e.decodes fl
  | .binOp _ l r | .compare _ l r => l.decodes fl && r.decodes fl
  | .ifExpr c x y => c.decodes fl && x.decodes fl && y.decodes fl

mutual

def Stmt.jsonDepth : Stmt F → ℕ
  | .assign _ _ value | .ret value => value.jsonDepth + 1
  | .forRange _ start stop body =>
    max (max start.jsonDepth stop.jsonDepth) (bodyDepth body + 1) + 1
  | .whileDo cond body => max cond.jsonDepth (bodyDepth body + 1) + 1
  | .ifElse test thenBody elseBody =>
    max test.jsonDepth (max (bodyDepth thenBody + 1) (bodyDepth elseBody + 1)) + 1
  | .brk | .cont => 1

def bodyDepth : List (Stmt F) → ℕ
  | [] => 0
  | stmt :: rest => max stmt.jsonDepth (bodyDepth rest)

end

mutual

def Stmt.decodes (fl : FloatOps F) : Stmt F → Bool
  | .assign _ _ value | .ret value => value.decodes fl
  | .forRange _ start stop body => start.decodes fl && stop.decodes fl && bodyDecodes fl body
  | .whileDo cond body => cond.decodes fl && bodyDecodes fl body
  | .ifElse test thenBody elseBody =>
    test.decodes fl && bodyDecodes fl thenBody && bodyDecodes fl elseBody
  | .brk | .cont => true

def bodyDecodes (fl : FloatOps F) : List (Stmt F) → Bool
  | [] => true
  | stmt :: rest => stmt.decodes fl && bodyDecodes fl rest

end

/-- The deepest nesting that `serde_json` reads. -/
def jsonDepthLimit : ℕ := 127

/-- `serde_json::from_str` accepts the text of the kernel. -/
def Kernel.decodes (fl : FloatOps F) (k : Kernel F) : Bool :=
  bodyDecodes fl k.body && decide (bodyDepth k.body + 2 ≤ jsonDepthLimit)

/-! ## `try_compile` -/

def FnNode.params : FnNode F → List String
  | .functionDef params _ | .lambda params _ => params

/-- The kernel that `try_compile` builds, unless it returns `None` before `jit_compile`. -/
def walkFunction (inputDtype : Dtype) (node : FnNode F) : Option (Kernel F) :=
  match node.params with
  | [param] =>
    let w := Walker.init param inputDtype
    match node with
    | .lambda _ body =>
      match w.expr body with
      | .error _ => none
      | .ok (value, dt) => some ⟨inputDtype, dt, [.ret value]⟩
    | .functionDef _ body =>
      match w.stmts true body with
      | .error _ => none
      | .ok ((bodyIr, terminated), w) =>
        if terminated then some ⟨inputDtype, w.outputDtype.getD inputDtype, bodyIr⟩ else none
  | _ => none

/-- How `try_compile` ends. The pair it returns on success is a hash, by which the kernel is
registered, and the output dtype; here it is the registered kernel itself. -/
inductive CompileResult (F : Type)
  /-- `None` -/
  | rejected
  | compiled (kernel : Kernel F) (code : Compiled F)
  /-- a `PanicException`, which `except Exception` does not catch -/
  | raises
  deriving Repr

def CompileResult.accepted : CompileResult F → Bool
  | .compiled _ _ => true
  | .rejected | .raises => false

theorem CompileResult.exists_compiled {r : CompileResult F} (h : r.accepted = true) :
    ∃ k g, r = .compiled k g := by
  cases r with
  | compiled k g => exact ⟨k, g, rfl⟩
  | rejected | raises => simp [accepted] at h

def tryCompile (fl : FloatOps F) (fnNode : Option (FnNode F)) (inputDtype : Dtype) :
    CompileResult F :=
  match fnNode.bind (walkFunction inputDtype) with
  | none => .rejected
  | some kernel =>
    if kernel.decodes fl then
      match compile fl kernel with
      | .ok code => .compiled kernel code
      | .error .panic => .raises
      | .error _ => .rejected
    else .rejected

/-- The kernel of an accepted function comes from the walker and is the one compiled. -/
theorem tryCompile_eq_compiled {fl : FloatOps F} {fnNode : Option (FnNode F)} {d : Dtype}
    {k : Kernel F} {g : Compiled F} (h : tryCompile fl fnNode d = .compiled k g) :
    (∃ node, fnNode = some node ∧ walkFunction d node = some k) ∧ k.decodes fl = true ∧
      compile fl k = .ok g := by
  unfold tryCompile at h
  split at h
  · cases h
  · rename_i kernel hwalk
    split at h
    · rename_i hdec
      split at h
      · rename_i code hcode
        cases h
        exact ⟨Option.bind_eq_some_iff.mp hwalk, hdec, hcode⟩
      · cases h
      · cases h
    · cases h

theorem tryCompile_of_compile {fl : FloatOps F} {node : FnNode F} {d : Dtype} {k : Kernel F}
    {g : Compiled F} (hwalk : walkFunction d node = some k) (hdecodes : k.decodes fl = true)
    (hc : compile fl k = .ok g) : tryCompile fl (some node) d = .compiled k g := by
  simp only [tryCompile, Option.bind_some, hwalk, hdecodes, hc, if_true]

/-- The walker keeps the lane it is asked for. -/
theorem walkFunction_inputDtype {d : Dtype} {node : FnNode F} {k : Kernel F}
    (h : walkFunction d node = some k) : k.inputDtype = d := by
  unfold walkFunction at h
  split at h
  · dsimp only at h
    split at h
    · split at h
      · cases h
      · cases h
        rfl
    · split at h
      · cases h
      · split at h
        · cases h
          rfl
        · cases h
  · cases h

end Gilmap
