import Gilmap.Jit.InStep
import Gilmap.Library.Fuel
import Gilmap.Python.SafeRuns

/-! # Runs on which compiled code follows Python

Python's runs of a function, each with what is known of the machine beside it and a condition
on each step: what is stored is a safe value, or a calm one on which the two sides may differ
from then on; what decides is a test that the code sees as Python does; what bounds a loop is
safe, and the target of a `for` is where the loop has left it when a turn ends. A run may come
to a step at which the code traps.
-/
namespace Gilmap
open Library
variable {F : Type}

/-- Python's frame and what is known of it on the machine. -/
structure SafeState (F : Type) where
  frame : PyFrame F
  known : SafeFrame F
  shows : known.Shows frame

namespace SafeState

/-- Both sides bind the name to the value. -/
def bind (s : SafeState F) (name : String) (v : PyVal F) : SafeState F :=
  ⟨s.frame.bind name v, s.known.bind name v, s.shows.bind name v⟩

/-- Python binds the name to the value, the code to some value. -/
def lose (s : SafeState F) (name : String) (v : PyVal F) : SafeState F :=
  ⟨s.frame.bind name v, s.known.lose name, s.shows.lose name v⟩

/-- The code alone binds the name. -/
def forget (s : SafeState F) (name : String) : SafeState F :=
  ⟨s.frame, s.known.forget name, s.shows.forget name⟩

end SafeState

inductive SafeFlow (F : Type)
  | normal (s : SafeState F)
  | brk (s : SafeState F)
  | cont (s : SafeState F)
  | ret (v : PyVal F)

/-- The state in which a loop takes its next turn. -/
def SafeFlow.again : SafeFlow F → Option (SafeState F)
  | .normal s | .cont s => some s
  | .brk _ | .ret _ => none

/-- How a turn ends the loop. -/
def SafeFlow.leaves : SafeFlow F → Option (SafeFlow F)
  | .brk s => some (.normal s)
  | .ret v => some (.ret v)
  | .normal _ | .cont _ => none

def SafeFlow.python : SafeFlow F → PyFlow F
  | .normal s => .normal s.frame
  | .brk s => .brk s.frame
  | .cont s => .cont s.frame
  | .ret v => .ret v

/-- What is run: a statement, a body, the turns of a `for` that are left, or a `while`. -/
inductive PyTask (F : Type)
  | stmt (stmt : PyStmt F)
  | body (body : List (PyStmt F))
  | turns (var : String) (body : List (PyStmt F)) (n : ℕ) (i : ℤ)
  | loop (test : PyExpr F) (body : List (PyStmt F))

namespace PyFloats

/-- What becomes of the state when the name is bound to the value of the expression. -/
inductive Stores (py : PyFloats F) (w : Walker) (s : SafeState F) (name : String) (e : PyExpr F) :
    SafeState F → Prop
  | safe {v : PyVal F} : py.Safe w s.known.view e → py.eval s.frame e = .ok v →
      Stores py w s name e (s.bind name v)
  | calm {v : PyVal F} : py.Calm w s.known.view e → py.eval s.frame e = .ok v →
      Stores py w s name e (s.lose name v)

/-- The code decides as the test does. -/
structure SafeTest (py : PyFloats F) (w : Walker) (s : SafeState F) (test : PyExpr F) (b : Bool) :
    Prop where
  python : py.eval s.frame test >>= py.truthy = .ok b
  decides : py.Decides w s.known.view b (w.truncate test .i64)

/-- The bounds of a `for`, which the code takes as integers. -/
structure SafeRange (py : PyFloats F) (w : Walker) (s : SafeState F) (iter : PyExpr F)
    (start stop : ℤ) : Prop where
  python : py.range s.frame iter = .ok (start, stop)
  safe : ∀ func args keywords, iter = .call func args keywords →
    ∀ e ∈ args, py.Safe w s.known.view (.call (.name "int") [e] [])

inductive SafeRun (py : PyFloats F) (w : Walker) : PyTask F → SafeState F → SafeFlow F → Prop
  | assign {name : String} {value : PyExpr F} {s s' : SafeState F} : py.Stores w s name value s' →
      SafeRun py w (.stmt (.assign [.name name] value)) s (.normal s')
  | augAssign {name : String} {op : PyBinOp} {value : PyExpr F} {s s' : SafeState F} :
      py.Stores w s name (.binOp (.name name) op value) s' →
      SafeRun py w (.stmt (.augAssign (.name name) op value)) s (.normal s')
  | ret {value : PyExpr F} {s : SafeState F} {v : PyVal F} : py.Calm w s.known.view value →
      py.eval s.frame value = .ok v → SafeRun py w (.stmt (.ret (some value))) s (.ret v)
  | ifStmt {test : PyExpr F} {body orelse : List (PyStmt F)} {s : SafeState F} {b : Bool}
      {flow : SafeFlow F} : py.SafeTest w s test b →
      SafeRun py w (.body (if b then body else orelse)) s flow →
      SafeRun py w (.stmt (.ifStmt test body orelse)) s flow
  | forStmt {var : String} {iter : PyExpr F} {body : List (PyStmt F)} {s : SafeState F}
      {start stop : ℤ} {flow : SafeFlow F} : py.SafeRange w s iter start stop →
      SafeRun py w (.turns var body (stop - start).toNat start) s flow →
      SafeRun py w (.stmt (.forStmt (.name var) iter body [])) s flow
  | whileStmt {test : PyExpr F} {body : List (PyStmt F)} {s : SafeState F} {flow : SafeFlow F} :
      SafeRun py w (.loop test body) s flow → SafeRun py w (.stmt (.whileStmt test body [])) s flow
  | brk {s : SafeState F} : SafeRun py w (.stmt .brk) s (.brk s)
  | cont {s : SafeState F} : SafeRun py w (.stmt .cont) s (.cont s)
  | docstring {text : String} {s : SafeState F} :
      SafeRun py w (.stmt (.exprStmt (.constant (.str text)))) s (.normal s)
  | nil {s : SafeState F} : SafeRun py w (.body []) s (.normal s)
  | cons {stmt : PyStmt F} {rest : List (PyStmt F)} {s s' : SafeState F} {flow : SafeFlow F} :
      SafeRun py w (.stmt stmt) s (.normal s') → SafeRun py w (.body rest) s' flow →
      SafeRun py w (.body (stmt :: rest)) s flow
  | leave {stmt : PyStmt F} {rest : List (PyStmt F)} {s : SafeState F} {flow : SafeFlow F} :
      SafeRun py w (.stmt stmt) s flow → (∀ s', flow ≠ .normal s') →
      SafeRun py w (.body (stmt :: rest)) s flow
  | turnsDone {var : String} {body : List (PyStmt F)} {i : ℤ} {s : SafeState F} :
      SafeRun py w (.turns var body 0 i) s (.normal (s.forget var))
  | turnsNext {var : String} {body : List (PyStmt F)} {n : ℕ} {i : ℤ} {s s' : SafeState F}
      {flow flow' : SafeFlow F} : SafeRun py w (.body body) (s.bind var (.int i)) flow →
      flow.again = some s' → s'.known.locals var = some (.int i) →
      SafeRun py w (.turns var body n (i + 1)) s' flow' →
      SafeRun py w (.turns var body (n + 1) i) s flow'
  | turnsLeave {var : String} {body : List (PyStmt F)} {n : ℕ} {i : ℤ} {s : SafeState F}
      {flow flow' : SafeFlow F} : SafeRun py w (.body body) (s.bind var (.int i)) flow →
      flow.leaves = some flow' → SafeRun py w (.turns var body (n + 1) i) s flow'
  | loopDone {test : PyExpr F} {body : List (PyStmt F)} {s : SafeState F} :
      py.SafeTest w s test false → SafeRun py w (.loop test body) s (.normal s)
  | loopNext {test : PyExpr F} {body : List (PyStmt F)} {s s' : SafeState F}
      {flow flow' : SafeFlow F} : py.SafeTest w s test true →
      SafeRun py w (.body body) s flow → flow.again = some s' →
      SafeRun py w (.loop test body) s' flow' → SafeRun py w (.loop test body) s flow'
  | loopLeave {test : PyExpr F} {body : List (PyStmt F)} {s : SafeState F}
      {flow flow' : SafeFlow F} : py.SafeTest w s test true →
      SafeRun py w (.body body) s flow → flow.leaves = some flow' →
      SafeRun py w (.loop test body) s flow'

/-- A safe run of the task comes to one at which `P` holds. -/
inductive SafelyReaches (py : PyFloats F) (w : Walker) (P : PyTask F → SafeState F → Prop) :
    PyTask F → SafeState F → Prop
  | here {task : PyTask F} {s : SafeState F} : P task s → SafelyReaches py w P task s
  | ifStmt {test : PyExpr F} {body orelse : List (PyStmt F)} {s : SafeState F} {b : Bool} :
      py.SafeTest w s test b → SafelyReaches py w P (.body (if b then body else orelse)) s →
      SafelyReaches py w P (.stmt (.ifStmt test body orelse)) s
  | forStmt {var : String} {iter : PyExpr F} {body : List (PyStmt F)} {s : SafeState F}
      {start stop : ℤ} : py.SafeRange w s iter start stop →
      SafelyReaches py w P (.turns var body (stop - start).toNat start) s →
      SafelyReaches py w P (.stmt (.forStmt (.name var) iter body [])) s
  | whileStmt {test : PyExpr F} {body : List (PyStmt F)} {s : SafeState F} :
      SafelyReaches py w P (.loop test body) s → SafelyReaches py w P (.stmt (.whileStmt test body [])) s
  | first {stmt : PyStmt F} {rest : List (PyStmt F)} {s : SafeState F} :
      SafelyReaches py w P (.stmt stmt) s → SafelyReaches py w P (.body (stmt :: rest)) s
  | later {stmt : PyStmt F} {rest : List (PyStmt F)} {s s' : SafeState F} :
      py.SafeRun w (.stmt stmt) s (.normal s') → SafelyReaches py w P (.body rest) s' →
      SafelyReaches py w P (.body (stmt :: rest)) s
  | turn {var : String} {body : List (PyStmt F)} {n : ℕ} {i : ℤ} {s : SafeState F} :
      SafelyReaches py w P (.body body) (s.bind var (.int i)) →
      SafelyReaches py w P (.turns var body (n + 1) i) s
  | laterTurn {var : String} {body : List (PyStmt F)} {n : ℕ} {i : ℤ} {s s' : SafeState F}
      {flow : SafeFlow F} : py.SafeRun w (.body body) (s.bind var (.int i)) flow →
      flow.again = some s' → s'.known.locals var = some (.int i) →
      SafelyReaches py w P (.turns var body n (i + 1)) s' →
      SafelyReaches py w P (.turns var body (n + 1) i) s
  | round {test : PyExpr F} {body : List (PyStmt F)} {s : SafeState F} : py.SafeTest w s test true →
      SafelyReaches py w P (.body body) s → SafelyReaches py w P (.loop test body) s
  | laterRound {test : PyExpr F} {body : List (PyStmt F)} {s s' : SafeState F} {flow : SafeFlow F} :
      py.SafeTest w s test true → py.SafeRun w (.body body) s flow → flow.again = some s' →
      SafelyReaches py w P (.loop test body) s' → SafelyReaches py w P (.loop test body) s

/-- What the code evaluates first in the task fails. -/
inductive TaskFails (py : PyFloats F) (w : Walker) : PyTask F → SafeState F → Prop
  | assign {name : String} {value : PyExpr F} {s : SafeState F} : py.Fails w s.known.view value →
      TaskFails py w (.stmt (.assign [.name name] value)) s
  | augAssign {name : String} {op : PyBinOp} {value : PyExpr F} {s : SafeState F} :
      py.Fails w s.known.view (.binOp (.name name) op value) →
      TaskFails py w (.stmt (.augAssign (.name name) op value)) s
  | ret {value : PyExpr F} {s : SafeState F} : py.Fails w s.known.view value →
      TaskFails py w (.stmt (.ret (some value))) s
  | ifStmt {test : PyExpr F} {body orelse : List (PyStmt F)} {s : SafeState F} :
      py.Fails w s.known.view (w.truncate test .i64) →
      TaskFails py w (.stmt (.ifStmt test body orelse)) s
  | forStmt {target func e : PyExpr F} {args : List (PyExpr F)} {keywords : List String}
      {body orelse : List (PyStmt F)} {s : SafeState F} : e ∈ args →
      py.Fails w s.known.view (.call (.name "int") [e] []) →
      TaskFails py w (.stmt (.forStmt target (.call func args keywords) body orelse)) s
  | loop {test : PyExpr F} {body : List (PyStmt F)} {s : SafeState F} :
      py.Fails w s.known.view (w.truncate test .i64) → TaskFails py w (.loop test body) s

end PyFloats

/-! ## Safe runs are Python's -/

/-- Python's run of a task: `n` is the fuel of statements, `k` the one of the `while` itself. -/
def PyTask.exec (py : PyFloats F) (n k : ℕ) : PyTask F → PyFrame F → PyRes F
  | .stmt s => py.execStmt n s
  | .body b => py.execBody n b
  | .turns var b m i => PyFloats.forLoop var (py.execBody n b) m i
  | .loop test b => py.whileLoop test (py.execBody n b) k

section Python
variable {py : PyFloats F} {w : Walker} {s : SafeState F}

theorem SafeFlow.python_next {flow : SafeFlow F} {s' : SafeState F} (h : flow.again = some s')
    (again : PyFrame F → PyRes F) :
    PyRes.loopNext (some (.ok flow.python)) again = again s'.frame := by
  cases flow with
  | normal | cont =>
    cases h
    rfl
  | brk | ret => cases h

theorem SafeFlow.python_leave {flow flow' : SafeFlow F} (h : flow.leaves = some flow')
    (again : PyFrame F → PyRes F) :
    PyRes.loopNext (some (.ok flow.python)) again = some (.ok flow'.python) := by
  cases flow with
  | normal | cont => cases h
  | brk | ret =>
    cases h
    rfl

theorem PyFloats.Stores.exists_eval {name : String} {e : PyExpr F} {s' : SafeState F}
    (h : py.Stores w s name e s') :
    ∃ v, py.eval s.frame e = .ok v ∧ s'.frame = s.frame.bind name v := by
  cases h with
  | safe _ hv | calm _ hv => exact ⟨_, hv, rfl⟩

/-- A safe run is a run of Python's, for enough fuel. -/
theorem PyFloats.SafeRun.python {task : PyTask F} {flow : SafeFlow F} (h : py.SafeRun w task s flow) :
    Enough fun n k => task.exec py n k s.frame = some (.ok flow.python) := by
  induction h with
  | assign hstores | augAssign hstores =>
    obtain ⟨v, hv, hframe⟩ := hstores.exists_eval
    apply Enough.always
    intro n k
    simp only [PyTask.exec, PyFloats.execStmt, hv, SafeFlow.python, hframe]
  | ret _ hv =>
    apply Enough.always
    intro n k
    simp only [PyTask.exec, PyFloats.execStmt, hv, SafeFlow.python]
  | @ifStmt test body orelse s b flow htest _ ih =>
    apply ih.imp
    intro n k hbody
    simp only [PyTask.exec, PyFloats.execStmt, htest.python]
    cases b <;> exact hbody
  | forStmt hrange _ ih =>
    apply ih.imp
    intro n k hturns
    simp only [PyTask.exec, PyFloats.execStmt, hrange.python]
    exact hturns
  | whileStmt _ ih => exact ih.enter fun _ _ hloop => hloop
  | brk | cont | docstring | nil | turnsDone => exact .always fun _ _ => rfl
  | cons _ _ ih₁ ih₂ =>
    refine (ih₁.and ih₂).imp ?_
    rintro n k ⟨hfirst, hrest⟩
    simp only [PyTask.exec, SafeFlow.python] at hfirst hrest ⊢
    simp only [PyFloats.execBody, hfirst, PyRes.andThen, hrest]
  | @leave stmt rest s flow _ hne ih =>
    apply ih.imp
    intro n k hfirst
    simp only [PyTask.exec] at hfirst ⊢
    simp only [PyFloats.execBody, hfirst]
    cases flow with
    | normal => exact absurd rfl (hne _)
    | brk | cont | ret => rfl
  | turnsNext _ hagain _ _ ih₁ ih₂ =>
    refine (ih₁.and ih₂).imp ?_
    rintro n k ⟨hbody, hrest⟩
    simp only [PyTask.exec, SafeState.bind] at hbody hrest ⊢
    rw [PyFloats.forLoop, hbody, SafeFlow.python_next hagain, hrest]
  | turnsLeave _ hleaves ih =>
    apply ih.imp
    intro n k hbody
    simp only [PyTask.exec, SafeState.bind] at hbody ⊢
    rw [PyFloats.forLoop, hbody, SafeFlow.python_leave hleaves]
  | loopDone htest =>
    apply Enough.last
    intro n k
    simp only [PyTask.exec, PyFloats.whileLoop, htest.python, SafeFlow.python]
  | loopNext htest _ hagain _ ih₁ ih₂ =>
    refine (ih₁.and ih₂).turn ?_
    rintro n k ⟨hbody, hrest⟩
    simp only [PyTask.exec] at hbody hrest ⊢
    simp only [PyFloats.whileLoop, htest.python, hbody, SafeFlow.python_next hagain, hrest]
  | loopLeave htest _ hleaves ih =>
    apply ih.turn
    intro n k hbody
    simp only [PyTask.exec] at hbody ⊢
    simp only [PyFloats.whileLoop, htest.python, hbody, SafeFlow.python_leave hleaves]

end Python

/-! ## Calls -/

/-- The state in which a call begins. -/
def FnNode.safeStart (node : FnNode F) (param : String) (x : PyVal F) : SafeState F :=
  ⟨node.frame param x, .start param x, SafeFrame.start_shows node param x⟩

/-- The walker with the dtypes that the code generator gives the locals of the kernel. -/
def Kernel.walker (k : Kernel F) (param : String) : Walker where
  param := param
  inputDtype := k.inputDtype
  locals := declareBody k.body []
  outputDtype := some k.outputDtype

/-- A call returns, by a safe run. -/
def PyFloats.SafeCall (py : PyFloats F) (k : Kernel F) (node : FnNode F) (x : PyVal F) : Prop :=
  ∃ param v, node.params = [param] ∧
    py.SafeRun (k.walker param) (.body node.stmts) (node.safeStart param x) (.ret v)

/-- A call comes, by a safe run, to a step at which the code traps. -/
def PyFloats.TrapCall (py : PyFloats F) (k : Kernel F) (node : FnNode F) (x : PyVal F) : Prop :=
  ∃ param, node.params = [param] ∧ py.SafelyReaches (k.walker param) (py.TaskFails (k.walker param))
    (.body node.stmts) (node.safeStart param x)

/-- A safe run of the body that returns is a call that returns. -/
theorem PyFloats.SafeRun.call {py : PyFloats F} {w : Walker} {node : FnNode F} {param : String}
    {x v : PyVal F} (hparams : node.params = [param])
    (hrun : py.SafeRun w (.body node.stmts) (node.safeStart param x) (.ret v)) :
    ∃ m, ∀ n ≥ m, py.call n node x = some (.ok (some v)) := by
  obtain ⟨m, hm⟩ := hrun.python
  refine ⟨m, fun n hn => ?_⟩
  have hm := hm n hn n hn
  simp only [PyTask.exec, FnNode.safeStart, SafeFlow.python] at hm
  cases node with
  | lambda params body =>
    obtain rfl : params = [param] := hparams
    simp only [FnNode.stmts, PyFloats.execBody, PyFloats.execStmt] at hm
    cases hv : py.eval ((FnNode.lambda [param] body).frame param x) body with
    | error e => simp [hv, PyRes.andThen] at hm
    | ok u =>
      simp only [hv, PyRes.andThen, Option.some.injEq, Except.ok.injEq, PyFlow.ret.injEq] at hm
      simp [PyFloats.call, hv, hm, Except.map]
  | functionDef params body =>
    obtain rfl : params = [param] := hparams
    simp only [FnNode.stmts] at hm
    simp [PyFloats.call, hm]

/-- A safe call returns in Python. -/
theorem PyFloats.SafeCall.python {py : PyFloats F} {k : Kernel F} {node : FnNode F} {x : PyVal F}
    (h : py.SafeCall k node x) : ∃ v m, ∀ n ≥ m, py.call n node x = some (.ok (some v)) := by
  obtain ⟨param, v, hparams, hrun⟩ := h
  exact ⟨v, hrun.call hparams⟩

end Gilmap
