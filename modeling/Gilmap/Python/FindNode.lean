import Gilmap.Library.BreadthFirst
import Gilmap.Python.TryCompile

/-! # From a callable to its definition

`gilmap/_ast_utils.py`: the lines of source that `inspect` finds for a callable are parsed
again, and the first definition in the tree is taken for the one that the callable runs.
-/
namespace Gilmap
open Library Library.RoseTree
variable {F : Type}

/-! ## Syntax trees -/

/-- A node without its children; a `FunctionDef` or `Lambda` has what the walker reads of
it, any other node its class and the fields that are no nodes. -/
inductive AstClass (F : Type)
  | definition (view : FnNode F)
  | other (className fields : String)

structure AstLabel (F : Type) where
  cls : AstClass F
  /-- `lineno` and `col_offset`, for the nodes that have them -/
  pos : Option (ℕ × ℕ)

abbrev AstNode (F : Type) := RoseTree (AstLabel F)

/-- What the walker reads of a `FunctionDef` or `Lambda`. -/
def AstNode.view (n : AstNode F) : Option (FnNode F) :=
  match n.label.cls with
  | .definition view => some view
  | .other _ _ => none

/-- `isinstance(node, (ast.FunctionDef, ast.Lambda))` -/
def AstNode.isFn (n : AstNode F) : Bool := (AstNode.view n).isSome

/-! ## String statements

A string that is a statement leaves no code, and `dedent` rewrites its lines. -/

mutual

/-- The statement without the texts of string statements. -/
def PyStmt.code : PyStmt F → PyStmt F
  | .exprStmt (.constant (.str _)) => .exprStmt (.constant (.str ""))
  | .ifStmt test body orelse => .ifStmt test (bodyCode body) (bodyCode orelse)
  | .forStmt target iter body orelse => .forStmt target iter (bodyCode body) (bodyCode orelse)
  | .whileStmt test body orelse => .whileStmt test (bodyCode body) (bodyCode orelse)
  | .assign targets value => .assign targets value
  | .augAssign target op value => .augAssign target op value
  | .ret value => .ret value
  | .brk => .brk
  | .cont => .cont
  | .exprStmt value => .exprStmt value
  | .other className => .other className

def bodyCode : List (PyStmt F) → List (PyStmt F)
  | [] => []
  | stmt :: rest => stmt.code :: bodyCode rest

end

def FnNode.code : FnNode F → FnNode F
  | .functionDef params body => .functionDef params (bodyCode body)
  | .lambda params body => .lambda params body

theorem PyStmt.isDocstring_code (stmt : PyStmt F) : stmt.code.isDocstring = stmt.isDocstring := by
  cases stmt with
  | exprStmt value =>
    cases value with
    | constant c => cases c <;> rfl
    | _ => rfl
  | _ => rfl

mutual

/-- The walker does not read string statements. -/
theorem Walker.stmt_code (w : Walker) (stmt : PyStmt F) : w.stmt stmt.code = w.stmt stmt := by
  cases stmt with
  | exprStmt value =>
    cases value with
    | constant c => cases c <;> rfl
    | _ => rfl
  | ifStmt test body orelse =>
    simp only [PyStmt.code, Walker.stmt, Walker.stmts_code _ _ body, Walker.stmts_code _ _ orelse]
  | forStmt target iter body orelse =>
    cases target with
    | name var =>
      cases orelse with
      | nil => simp only [PyStmt.code, bodyCode, Walker.stmt, Walker.stmts_code _ _ body]
      | cons stmt rest => rfl
    | _ => rfl
  | whileStmt test body orelse =>
    cases orelse with
    | nil => simp only [PyStmt.code, bodyCode, Walker.stmt, Walker.stmts_code _ _ body]
    | cons stmt rest => rfl
  | _ => rfl

theorem Walker.stmts_code (w : Walker) (first : Bool) (body : List (PyStmt F)) :
    w.stmts first (bodyCode body) = w.stmts first body := by
  cases body with
  | nil => rfl
  | cons stmt rest =>
    simp only [bodyCode, Walker.stmts, stmt.isDocstring_code, Walker.stmt_code _ stmt,
      Walker.stmts_code _ _ rest]

end

theorem walkFunction_code (d : Dtype) (node : FnNode F) :
    walkFunction d node.code = walkFunction d node := by
  cases node with
  | lambda params body => rfl
  | functionDef params body =>
    cases params with
    | nil => rfl
    | cons param rest =>
      cases rest with
      | nil => simp only [walkFunction, FnNode.code, FnNode.params, Walker.stmts_code]
      | cons _ _ => rfl

/-! ## Callables -/

abbrev Line := List Char

/-- A `FunctionDef` or `Lambda` of a source file: its `lineno` and `col_offset` there, and what
the walker reads of it. -/
structure Definition (F : Type) where
  file : String
  pos : ℕ × ℕ
  view : FnNode F

/-- The lines of a source file, and the index of an object's first line in it. -/
structure SourceLoc where
  file : String
  lines : List Line
  start : ℕ

structure PyObject (F : Type) where
  /-- the definition whose code runs when the object is called, if it is one of these -/
  runs : Option (Definition F)
  /-- where `inspect` finds the object; `none` for an `OSError` or a `TypeError` -/
  source : Option SourceLoc

inductive Callable (F : Type)
  | plain (obj : PyObject F)
  /-- an object with the attribute `__wrapped__` -/
  | wrapper (obj : PyObject F) (wrapped : Callable F)

def Callable.obj : Callable F → PyObject F
  | .plain obj | .wrapper obj _ => obj

/-- `inspect.unwrap` -/
def Callable.unwrap : Callable F → PyObject F
  | .plain obj => obj
  | .wrapper _ wrapped => wrapped.unwrap

/-! ## `get_source` -/

def isIndent (c : Char) : Bool := c = ' ' || c = '\t'

def commonPrefix : Line → Line → Line
  | a :: as, b :: bs => if a = b then a :: commonPrefix as bs else []
  | _, _ => []

/-- The longest indentation that all lines share, blank ones apart. -/
def margin (lines : List Line) : Line :=
  match (lines.filter fun line => !line.all isIndent).map (·.takeWhile isIndent) with
  | [] => []
  | indent :: rest => rest.foldl commonPrefix indent

/-- `textwrap.dedent` -/
def dedent (lines : List Line) : List Line :=
  lines.map fun line =>
    if line.all isIndent then [] else line.drop (margin lines).length

/-- Python's own part: where the block at the first of the lines ends, and its parser, with
`none` for a `SyntaxError`. -/
structure PyTools (F : Type) where
  getblock : List Line → List Line
  parse : List Line → Option (AstNode F)

/-- `inspect.getsource` -/
def PyTools.getsource (py : PyTools F) (func : Callable F) : Option (List Line) :=
  func.unwrap.source.map fun loc => py.getblock (loc.lines.drop loc.start)

def PyTools.getSource (py : PyTools F) (func : Callable F) : Option (List Line) :=
  (py.getsource func).map dedent

/-! ## `find_fn_node` -/

/-- The tree of the lines that belong to the callable. -/
def PyTools.tree (py : PyTools F) (func : Callable F) : Option (AstNode F) :=
  (py.getSource func).bind py.parse

/-- `find_fn_node`, whose `ast.walk` reads the tree with a queue. -/
def findFnNode (py : PyTools F) (func : Callable F) : Option (AstNode F) :=
  (py.tree func).bind fun tree => (walk [tree]).find? AstNode.isFn

/-- The place in the file of a node of the dedented lines. -/
def PyTools.place (py : PyTools F) (loc : SourceLoc) (n : AstNode F) : Option (ℕ × ℕ) :=
  n.label.pos.map fun (lineno, col) =>
    (lineno + loc.start, col + (margin (py.getblock (loc.lines.drop loc.start))).length)

/-- The node is the definition that runs when the callable is called: it has the definition's
place in the file, and its code. -/
def PyTools.Own (py : PyTools F) (func : Callable F) (n : AstNode F) : Prop :=
  ∃ d loc, func.obj.runs = some d ∧ func.unwrap.source = some loc ∧ d.file = loc.file ∧
    py.place loc n = some d.pos ∧ (AstNode.view n).map FnNode.code = some d.view.code

section FindNode
variable {py : PyTools F} {func : Callable F} {n : AstNode F}

theorem PyTools.Own.view_eq (h : py.Own func n) :
    ∃ own view, func.obj.runs = some own ∧ AstNode.view n = some view ∧ view.code = own.view.code := by
  obtain ⟨own, loc, hruns, -, -, -, hcode⟩ := h
  obtain ⟨view, hview, heq⟩ := Option.map_eq_some_iff.mp hcode
  exact ⟨own, view, hruns, hview, heq⟩

theorem PyTools.Own.isFn (h : py.Own func n) : AstNode.isFn n = true := by
  obtain ⟨own, view, -, hview, -⟩ := h.view_eq
  rw [AstNode.isFn, hview]
  rfl

/-- **The definition that is found.** It is the callable's own, or there is none, exactly
when every definition in the callable's lines is its own or has its own at a smaller depth
of the tree, or to its left at the same depth. -/
theorem findFnNode_own_iff (py : PyTools F) (func : Callable F) :
    (∀ n, findFnNode py func = some n → py.Own func n) ↔
      ∀ tree, py.tree func = some tree → Guarded AstNode.isFn (py.Own func) [tree] := by
  unfold findFnNode
  cases py.tree func with
  | none => simp
  | some tree =>
    simp only [Option.bind_some, Option.some.injEq, forall_eq']
    exact find?_walk_iff fun _ h => h.isFn

/-- Where the definition found is the callable's own, no other function is compiled. -/
theorem compiles_own {fl : FloatOps F} {d : Dtype} {k : Kernel F} {g : Compiled F}
    (h : ∀ n, findFnNode py func = some n → py.Own func n)
    (hc : tryCompile fl ((findFnNode py func).bind AstNode.view) d = .compiled k g) :
    ∃ own, func.obj.runs = some own ∧ walkFunction d own.view = some k := by
  obtain ⟨⟨view, hview, hwalk⟩, -⟩ := tryCompile_eq_compiled hc
  obtain ⟨n, hn, hnview⟩ := Option.bind_eq_some_iff.mp hview
  obtain ⟨own, view', hruns, hview', hcode⟩ := (h n hn).view_eq
  rw [hnview] at hview'
  cases hview'
  refine ⟨own, hruns, ?_⟩
  rw [← walkFunction_code, ← hcode, walkFunction_code, hwalk]

end FindNode

/-! ## Two lambdas on one line -/

section TwoLambdas

def leaf (className fields : String) (pos : Option (ℕ × ℕ)) : AstNode Unit :=
  .node ⟨.other className fields, pos⟩ []

/-- `lambda x: x <op> <c>` at a column of line 1. -/
def lambdaAt (col : ℕ) (op : PyBinOp) (c : ℤ) : AstNode Unit :=
  .node ⟨.definition (.lambda ["x"] (.binOp (.name "x") op (.constant (.int c)))), some (1, col)⟩
    [.node ⟨.other "arguments" "", none⟩ [leaf "arg" "x" (some (1, col + 7))],
      .node ⟨.other "BinOp" "", some (1, col + 10)⟩
        [.node ⟨.other "Name" "x", some (1, col + 10)⟩ [leaf "Load" "" none],
          leaf op.className "" none, leaf "Constant" (toString c) (some (1, col + 14))]]

def twoLambdasLine : Line := "fs = [lambda x: x + 1, lambda x: x * 2]".toList

def twoLambdas : AstNode Unit :=
  .node ⟨.other "Module" "", none⟩
    [.node ⟨.other "Assign" "", some (1, 0)⟩
      [.node ⟨.other "Name" "fs", some (1, 0)⟩ [leaf "Store" "" none],
        .node ⟨.other "List" "", some (1, 5)⟩ [lambdaAt 6 .add 1, lambdaAt 23 .mult 2, leaf "Load" "" none]]]

/-- Python on this one line. -/
def twoLambdasTools : PyTools Unit where
  getblock lines := lines.take 1
  parse lines := if lines = [twoLambdasLine] then some twoLambdas else none

/-- `fs[1]` -/
def secondLambda : Callable Unit :=
  .plain ⟨some ⟨"fs.py", (1, 23), .lambda ["x"] (.binOp (.name "x") .mult (.constant (.int 2)))⟩,
    some ⟨"fs.py", [twoLambdasLine], 0⟩⟩

theorem findFnNode_secondLambda :
    findFnNode twoLambdasTools secondLambda = some (lambdaAt 6 .add 1) := by
  have htree : twoLambdasTools.tree secondLambda = some twoLambdas := by
    have hdedent : dedent [twoLambdasLine] = [twoLambdasLine] := by decide +kernel
    simp [PyTools.tree, PyTools.getSource, PyTools.getsource, secondLambda, Callable.unwrap,
      twoLambdasTools, hdedent]
  rw [findFnNode, htree]
  simp [twoLambdas, lambdaAt, leaf, walk_cons, RoseTree.children, List.find?_cons, AstNode.isFn,
    AstNode.view, RoseTree.label]

theorem findFnNode_other_lambda :
    ¬ ∀ n, findFnNode twoLambdasTools secondLambda = some n → twoLambdasTools.Own secondLambda n := by
  intro h
  obtain ⟨d, loc, hruns, hsource, -, hplace, -⟩ := h _ findFnNode_secondLambda
  cases hruns
  cases hsource
  revert hplace
  decide +kernel

end TwoLambdas

/-! ## A method with a docstring of two lines -/

section Indented

def doubleWith (doc : String) : FnNode Unit :=
  .functionDef ["x"] [.exprStmt (.constant (.str doc)),
    .ret (some (.binOp (.name "x") .mult (.constant (.int 2))))]

def methodLines : List Line :=
  ["class C:", "    def f(x):", "        'Twice \\", "        x.'", "        return x * 2"].map
    String.toList

def methodTools : PyTools Unit where
  getblock lines := lines
  parse _ := none

/-- `C.f`, whose docstring has lost four blanks in the dedented lines. -/
example : methodTools.Own (.plain ⟨some ⟨"c.py", (2, 4), doubleWith "Twice         x."⟩,
    some ⟨"c.py", methodLines, 1⟩⟩) (.node ⟨.definition (doubleWith "Twice     x."), some (1, 0)⟩ []) :=
  ⟨_, _, rfl, rfl, rfl, by decide +kernel, rfl⟩

end Indented

end Gilmap
