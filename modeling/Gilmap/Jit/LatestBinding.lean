import Gilmap.Ir.Rules
import Gilmap.Jit.ForRange
import Gilmap.Jit.InStep
import Gilmap.Python.TryCompile

/-! # What a name denotes

The code of a name is the argument, wherever the name is the parameter's, and otherwise the
variable of the name. Beside a run of the code goes what Python has bound last to each name,
and the names on which the two are sure to agree. A `for` counts in the variable of its target:
when it has run out, and when the body has changed the target, the variable is another value's.
-/
namespace Gilmap
open Library
variable {F : Type}

/-- The value last bound to each name in Python's sense, and the names whose code is known to
give it. -/
structure Bindings (F : Type) where
  latest : Env F
  live : Set String

namespace Bindings

/-- At entry the parameter is bound to the argument. -/
def entry (param : String) (x : Val F) : Bindings F where
  latest := Env.empty.set param x
  live := {param}

/-- The code alone stores to the variable of the name. -/
def lose (γ : Bindings F) (name : String) : Bindings F :=
  { γ with live := γ.live \ {name} }

/-- Python binds the name to `v`; `same` says that its variable holds this value. A name that is
the parameter's goes on to be the argument in the code. -/
def take (γ : Bindings F) (param name : String) (v : Option (Val F)) (same : Prop) : Bindings F where
  latest := Function.update γ.latest name v
  live := (γ.live \ {name}) ∪ {n | n = name ∧ n ≠ param ∧ v.isSome ∧ same}

/-- Both sides bind the name. -/
def bind (γ : Bindings F) (param name : String) (v : Val F) : Bindings F := γ.take param name (some v) True

/-- The target is as the turn began. -/
def Keeps (γ : Bindings F) (var : String) (v : Option (Val F)) : Prop := var ∈ γ.live ∧ γ.latest var = v

end Bindings

/-- The value of index `k` in `range(start, stop)`. -/
def rangeItem : Val F → Val F → ℕ → Option (Val F)
  | .i64 a, .i64 b, k => if a.toInt + k < b.toInt then some (.i64 (BitVec.ofInt 64 (a.toInt + k))) else none
  | _, _, _ => none

/-! ## Runs -/

/-- What is run: in `turns` the header of a `for` is reached with `k` turns behind it, and `same`
says that the target's variable holds the value of index `k`. -/
inductive NameTask (F : Type)
  | stmt (stmt : Stmt F)
  | body (body : List (Stmt F))
  | turns (var : String) (start stop : Val F) (body : List (Stmt F)) (k : ℕ) (same : Prop)
  | loop (cond : Expr F) (body : List (Stmt F))

/-- A run of the code with the bindings beside it. -/
inductive NameRun (S : Sem F) (param : String) :
    NameTask F → Env F → Bindings F → Flow F → Bindings F → Prop
  | assign {name : String} {d : Dtype} {value : Expr F} {ρ : Env F} {γ : Bindings F} {v : Val F} :
      S.eval ρ value d = .ok v →
      NameRun S param (.stmt (.assign name d value)) ρ γ (.normal (ρ.set name v)) (γ.bind param name v)
  | ret {value : Expr F} {ρ : Env F} {γ : Bindings F} {v : Val F} : S.eval ρ value S.outputDtype = .ok v →
      NameRun S param (.stmt (.ret value)) ρ γ (.ret v ρ) γ
  | brk {ρ : Env F} {γ : Bindings F} : NameRun S param (.stmt .brk) ρ γ (.brk ρ) γ
  | cont {ρ : Env F} {γ : Bindings F} : NameRun S param (.stmt .cont) ρ γ (.cont ρ) γ
  | ifElse {test : Expr F} {thenBody elseBody : List (Stmt F)} {ρ : Env F} {γ γ' : Bindings F} {b : Bool}
      {flow : Flow F} : S.test ρ test = .ok b →
      NameRun S param (.body (if b then thenBody else elseBody)) ρ γ flow γ' →
      NameRun S param (.stmt (.ifElse test thenBody elseBody)) ρ γ flow γ'
  | forRange {var : String} {start stop : Expr F} {body : List (Stmt F)} {ρ : Env F} {γ γ' : Bindings F}
      {a b : Val F} {flow : Flow F} : S.eval ρ start .i64 = .ok a → S.eval ρ stop .i64 = .ok b →
      NameRun S param (.turns var a b body 0 True) (ρ.set var a) (γ.lose var) flow γ' →
      NameRun S param (.stmt (.forRange var start stop body)) ρ γ flow γ'
  | whileDo {cond : Expr F} {body : List (Stmt F)} {ρ : Env F} {γ γ' : Bindings F} {flow : Flow F} :
      NameRun S param (.loop cond body) ρ γ flow γ' →
      NameRun S param (.stmt (.whileDo cond body)) ρ γ flow γ'
  | nil {ρ : Env F} {γ : Bindings F} : NameRun S param (.body []) ρ γ (.normal ρ) γ
  | cons {stmt : Stmt F} {rest : List (Stmt F)} {ρ ρ' : Env F} {γ γ' γ'' : Bindings F} {flow : Flow F} :
      NameRun S param (.stmt stmt) ρ γ (.normal ρ') γ' → NameRun S param (.body rest) ρ' γ' flow γ'' →
      NameRun S param (.body (stmt :: rest)) ρ γ flow γ''
  | leave {stmt : Stmt F} {rest : List (Stmt F)} {ρ : Env F} {γ γ' : Bindings F} {flow : Flow F} :
      NameRun S param (.stmt stmt) ρ γ flow γ' → (∀ ρ', flow ≠ .normal ρ') →
      NameRun S param (.body (stmt :: rest)) ρ γ flow γ'
  | turnsDone {var : String} {a b : Val F} {body : List (Stmt F)} {k : ℕ} {same : Prop} {ρ : Env F}
      {γ : Bindings F} : S.below ρ var b = .ok false →
      NameRun S param (.turns var a b body k same) ρ γ (.normal ρ) γ
  | turnsNext {var : String} {a b v : Val F} {body : List (Stmt F)} {k : ℕ} {same : Prop} {ρ ρ' : Env F}
      {γ γ' γ'' : Bindings F} {flow flow' : Flow F} : S.below ρ var b = .ok true →
      NameRun S param (.body body) ρ (γ.take param var (rangeItem a b k) same) flow γ' →
      flow.again = some ρ' → S.bump ρ' var = .ok v →
      NameRun S param (.turns var a b body (k + 1) (γ'.Keeps var (rangeItem a b k))) (ρ'.set var v)
        (γ'.lose var) flow' γ'' →
      NameRun S param (.turns var a b body k same) ρ γ flow' γ''
  | turnsLeave {var : String} {a b : Val F} {body : List (Stmt F)} {k : ℕ} {same : Prop} {ρ : Env F}
      {γ γ' : Bindings F} {flow flow' : Flow F} : S.below ρ var b = .ok true →
      NameRun S param (.body body) ρ (γ.take param var (rangeItem a b k) same) flow γ' →
      flow.leaves = some flow' → NameRun S param (.turns var a b body k same) ρ γ flow' γ'
  | loopDone {cond : Expr F} {body : List (Stmt F)} {ρ : Env F} {γ : Bindings F} :
      S.test ρ cond = .ok false → NameRun S param (.loop cond body) ρ γ (.normal ρ) γ
  | loopNext {cond : Expr F} {body : List (Stmt F)} {ρ ρ' : Env F} {γ γ' γ'' : Bindings F}
      {flow flow' : Flow F} : S.test ρ cond = .ok true → NameRun S param (.body body) ρ γ flow γ' →
      flow.again = some ρ' → NameRun S param (.loop cond body) ρ' γ' flow' γ'' →
      NameRun S param (.loop cond body) ρ γ flow' γ''
  | loopLeave {cond : Expr F} {body : List (Stmt F)} {ρ : Env F} {γ γ' : Bindings F}
      {flow flow' : Flow F} : S.test ρ cond = .ok true → NameRun S param (.body body) ρ γ flow γ' →
      flow.leaves = some flow' → NameRun S param (.loop cond body) ρ γ flow' γ'

/-- A point of an execution: the code is about to evaluate the expression. -/
structure ReadPoint (F : Type) where
  expr : Expr F
  vars : Env F
  bindings : Bindings F

/-- The points that the execution of a task comes to, whether it ends or not. -/
inductive Visits (S : Sem F) (param : String) (p : ReadPoint F) : NameTask F → Env F → Bindings F → Prop
  | assign {name : String} {d : Dtype} : Visits S param p (.stmt (.assign name d p.expr)) p.vars p.bindings
  | ret : Visits S param p (.stmt (.ret p.expr)) p.vars p.bindings
  | test {thenBody elseBody : List (Stmt F)} :
      Visits S param p (.stmt (.ifElse p.expr thenBody elseBody)) p.vars p.bindings
  | branch {test : Expr F} {thenBody elseBody : List (Stmt F)} {ρ : Env F} {γ : Bindings F} {b : Bool} :
      S.test ρ test = .ok b → Visits S param p (.body (if b then thenBody else elseBody)) ρ γ →
      Visits S param p (.stmt (.ifElse test thenBody elseBody)) ρ γ
  | start {var : String} {stop : Expr F} {body : List (Stmt F)} :
      Visits S param p (.stmt (.forRange var p.expr stop body)) p.vars p.bindings
  | stop {var : String} {start : Expr F} {body : List (Stmt F)} :
      Visits S param p (.stmt (.forRange var start p.expr body)) p.vars p.bindings
  | forRange {var : String} {start stop : Expr F} {body : List (Stmt F)} {ρ : Env F} {γ : Bindings F}
      {a b : Val F} : S.eval ρ start .i64 = .ok a → S.eval ρ stop .i64 = .ok b →
      Visits S param p (.turns var a b body 0 True) (ρ.set var a) (γ.lose var) →
      Visits S param p (.stmt (.forRange var start stop body)) ρ γ
  | whileDo {cond : Expr F} {body : List (Stmt F)} {ρ : Env F} {γ : Bindings F} :
      Visits S param p (.loop cond body) ρ γ → Visits S param p (.stmt (.whileDo cond body)) ρ γ
  | head {stmt : Stmt F} {rest : List (Stmt F)} {ρ : Env F} {γ : Bindings F} :
      Visits S param p (.stmt stmt) ρ γ → Visits S param p (.body (stmt :: rest)) ρ γ
  | tail {stmt : Stmt F} {rest : List (Stmt F)} {ρ ρ' : Env F} {γ γ' : Bindings F} :
      NameRun S param (.stmt stmt) ρ γ (.normal ρ') γ' → Visits S param p (.body rest) ρ' γ' →
      Visits S param p (.body (stmt :: rest)) ρ γ
  | turn {var : String} {a b : Val F} {body : List (Stmt F)} {k : ℕ} {same : Prop} {ρ : Env F}
      {γ : Bindings F} : S.below ρ var b = .ok true →
      Visits S param p (.body body) ρ (γ.take param var (rangeItem a b k) same) →
      Visits S param p (.turns var a b body k same) ρ γ
  | laterTurn {var : String} {a b v : Val F} {body : List (Stmt F)} {k : ℕ} {same : Prop} {ρ ρ' : Env F}
      {γ γ' : Bindings F} {flow : Flow F} : S.below ρ var b = .ok true →
      NameRun S param (.body body) ρ (γ.take param var (rangeItem a b k) same) flow γ' →
      flow.again = some ρ' → S.bump ρ' var = .ok v →
      Visits S param p (.turns var a b body (k + 1) (γ'.Keeps var (rangeItem a b k))) (ρ'.set var v)
        (γ'.lose var) →
      Visits S param p (.turns var a b body k same) ρ γ
  | loopTest {body : List (Stmt F)} : Visits S param p (.loop p.expr body) p.vars p.bindings
  | loopTurn {cond : Expr F} {body : List (Stmt F)} {ρ : Env F} {γ : Bindings F} :
      S.test ρ cond = .ok true → Visits S param p (.body body) ρ γ → Visits S param p (.loop cond body) ρ γ
  | laterLoop {cond : Expr F} {body : List (Stmt F)} {ρ ρ' : Env F} {γ γ' : Bindings F} {flow : Flow F} :
      S.test ρ cond = .ok true → NameRun S param (.body body) ρ γ flow γ' → flow.again = some ρ' →
      Visits S param p (.loop cond body) ρ' γ' → Visits S param p (.loop cond body) ρ γ

/-! ## What the live names give -/

/-- Reading a live name gives the value bound last. -/
structure Bindings.Holds (γ : Bindings F) (S : Sem F) (param : String) (ρ : Env F) : Prop where
  arg : param ∈ γ.live → γ.latest param = some S.param
  var : ∀ n ∈ γ.live, n ≠ param → ∃ v, S.readLocal ρ n = .ok v ∧ γ.latest n = some v

section Holds
variable {S : Sem F} {param name : String} {ρ : Env F} {γ : Bindings F} {v : Option (Val F)} {same : Prop}

theorem Bindings.holds_entry (S : Sem F) (param : String) (ρ : Env F) :
    (Bindings.entry param S.param).Holds S param ρ where
  arg _ := Env.set_self _ _ _
  var _ hn hne := absurd hn hne

theorem Bindings.Holds.lose (h : γ.Holds S param ρ) (name : String) (x : Val F) :
    (γ.lose name).Holds S param (ρ.set name x) where
  arg hlive := h.arg hlive.1
  var n hlive hne := by
    obtain ⟨u, hread, hu⟩ := h.var n hlive.1 hne
    refine ⟨u, ?_, hu⟩
    simpa only [Sem.readLocal, Env.set_of_ne ρ hlive.2] using hread

theorem Bindings.Holds.take (h : γ.Holds S param ρ)
    (hsame : same → name ≠ param → ∀ u, v = some u → S.readLocal ρ name = .ok u) :
    (γ.take param name v same).Holds S param ρ where
  arg hlive := by
    rcases hlive with ⟨hlive, hne⟩ | ⟨rfl, hne, -⟩
    · rw [← h.arg hlive]
      exact Function.update_of_ne hne _ _
    · exact absurd rfl hne
  var n hlive hn := by
    rcases hlive with ⟨hlive, hne⟩ | ⟨rfl, -, hsome, hs⟩
    · obtain ⟨u, hread, hu⟩ := h.var n hlive hn
      refine ⟨u, hread, ?_⟩
      rw [← hu]
      exact Function.update_of_ne hne _ _
    · obtain ⟨u, rfl⟩ := Option.isSome_iff_exists.mp hsome
      exact ⟨u, hsame hs hn u rfl, Function.update_self ..⟩

@[simp] theorem Bindings.lose_take : (γ.lose name).take param name v same = γ.take param name v same := by
  simp [Bindings.lose, Bindings.take]

theorem Bindings.Holds.bind (h : γ.Holds S param ρ) (name : String) (x : Val F) :
    (γ.bind param name x).Holds S param (ρ.set name x) := by
  rw [Bindings.bind, ← Bindings.lose_take]
  apply (h.lose name x).take
  intro _ _ u hu
  cases hu
  exact Sem.readLocal_set

end Holds

/-! ## The target of a `for` -/

section Range
variable {a b v : Val F} {k : ℕ}

theorem rangeItem_zero (h : rangeItem a b 0 = some v) : v = a := by
  cases a with
  | i64 x =>
    cases b with
    | i64 y =>
      simp only [rangeItem, Nat.cast_zero, add_zero, BitVec.ofInt_toInt] at h
      split at h
      · exact (Option.some.inj h).symm
      · cases h
    | i8 | f64 | i64x2 | f64x2 => cases h
  | i8 | f64 | i64x2 | f64x2 => cases h

/-- The values of a range follow one another by one. -/
theorem rangeItem_succ (h : rangeItem a b (k + 1) = some v) :
    ∃ u : BitVec 64, rangeItem a b k = some (.i64 u) ∧ v = .i64 (u + 1) := by
  cases a with
  | i64 x =>
    cases b with
    | i64 y =>
      simp only [rangeItem] at h ⊢
      split at h
      · rename_i hlt
        push_cast at hlt
        refine ⟨_, if_pos (by omega), ?_⟩
        rw [← Option.some.inj h, Nat.cast_succ, ← add_assoc, BitVec.ofInt_add]
        rfl
      · cases h
    | i8 | f64 | i64x2 | f64x2 => cases h
  | i8 | f64 | i64x2 | f64x2 => cases h

end Range

/-! ## Every run keeps the live names right -/

/-- What holds when a task begins. -/
def NameTask.Ready (S : Sem F) (param : String) : NameTask F → Env F → Bindings F → Prop
  | .turns var a b _ k same, ρ, γ => γ.Holds S param ρ ∧
      (same → var ≠ param → ∀ v, rangeItem a b k = some v → S.readLocal ρ var = .ok v)
  | .stmt _, ρ, γ | .body _, ρ, γ | .loop _ _, ρ, γ => γ.Holds S param ρ

section Preservation
variable {S : Sem F} {param var : String} {ρ : Env F} {γ γ' : Bindings F} {flow : Flow F} {a b : Val F}
  {body : List (Stmt F)} {k : ℕ} {same : Prop} {task : NameTask F} {p : ReadPoint F}

theorem Bindings.Holds.ready (h : γ.Holds S param ρ) (body : List (Stmt F)) (a b : Val F) :
    (NameTask.turns var a b body 0 True).Ready S param (ρ.set var a) (γ.lose var) := by
  refine ⟨h.lose var a, fun _ _ v hv => ?_⟩
  rw [rangeItem_zero hv]
  exact Sem.readLocal_set

/-- A turn begins by binding the target. -/
theorem NameTask.Ready.turn (h : (NameTask.turns var a b body k same).Ready S param ρ γ) :
    (γ.take param var (rangeItem a b k) same).Holds S param ρ := h.1.take h.2

/-- A turn behind which the target is as the turn began leaves the next value in its variable. -/
theorem Bindings.Holds.next (h : γ.Holds S param ρ) (body : List (Stmt F)) (a b : Val F) {v : Val F}
    (hv : S.bump ρ var = .ok v) :
    (NameTask.turns var a b body (k + 1) (γ.Keeps var (rangeItem a b k))).Ready S param (ρ.set var v)
      (γ.lose var) := by
  refine ⟨h.lose var v, ?_⟩
  rintro ⟨hlive, hlatest⟩ hne w hw
  obtain ⟨u, hu, rfl⟩ := rangeItem_succ hw
  obtain ⟨z, hread, hz⟩ := h.var var hlive hne
  rw [hlatest, hu] at hz
  cases hz
  rw [Sem.bump_i64 hread] at hv
  cases hv
  exact Sem.readLocal_set

theorem Flow.env_of_leaves {flow' : Flow F} (h : flow.leaves = some flow') : flow'.env = flow.env := by
  cases flow with
  | normal | cont => cases h
  | brk | ret =>
    cases h
    rfl

/-- A run that begins with live names that are right ends so: by induction on the run. -/
theorem NameRun.holds (h : NameRun S param task ρ γ flow γ') (hready : task.Ready S param ρ γ) :
    γ'.Holds S param flow.env := by
  induction h with
  | assign => exact hready.bind _ _
  | ret | brk | cont | nil | loopDone => exact hready
  | turnsDone => exact hready.1
  | ifElse _ _ ih | whileDo _ ih | leave _ _ ih => exact ih hready
  | forRange _ _ _ ih => exact ih (Bindings.Holds.ready hready _ _ _)
  | cons _ _ ih₁ ih₂ => exact ih₂ (ih₁ hready)
  | turnsNext _ _ hagain hv _ ih₁ ih₂ =>
    have hbody := ih₁ hready.turn
    rw [Flow.env_of_again hagain] at hbody
    exact ih₂ (hbody.next _ _ _ hv)
  | turnsLeave _ _ hleaves ih =>
    rw [Flow.env_of_leaves hleaves]
    exact ih hready.turn
  | loopNext _ _ hagain _ ih₁ ih₂ =>
    have hbody := ih₁ hready
    rw [Flow.env_of_again hagain] at hbody
    exact ih₂ hbody
  | loopLeave _ _ hleaves ih =>
    rw [Flow.env_of_leaves hleaves]
    exact ih hready

/-- The live names are right at every point. -/
theorem Visits.holds (h : Visits S param p task ρ γ) (hready : task.Ready S param ρ γ) :
    p.bindings.Holds S param p.vars := by
  induction h with
  | assign | ret | test | start | stop | loopTest => exact hready
  | branch _ _ ih | whileDo _ ih | head _ ih | loopTurn _ _ ih => exact ih hready
  | forRange _ _ _ ih => exact ih (Bindings.Holds.ready hready _ _ _)
  | tail hrun _ ih => exact ih (hrun.holds hready)
  | turn _ _ ih => exact ih hready.turn
  | laterTurn _ hrun hagain hv _ ih =>
    have hbody := hrun.holds hready.turn
    rw [Flow.env_of_again hagain] at hbody
    exact ih (hbody.next _ _ _ hv)
  | laterLoop _ hrun hagain _ ih =>
    have hbody := hrun.holds hready
    rw [Flow.env_of_again hagain] at hbody
    exact ih hbody

end Preservation

/-! ## Runs of the semantics -/

/-- The run of a task: `n` is the fuel of statements, `j` the one of the loop itself. -/
def NameTask.exec (S : Sem F) (n j : ℕ) : NameTask F → Env F → Res F
  | .stmt s => S.execStmt n s
  | .body b => S.execBody n b
  | .turns var _ stop b _ _ => S.forLoop var stop (S.execBody n b) j
  | .loop cond b => S.whileLoop cond (S.execBody n b) j

section Exec
variable {S : Sem F} {param : String} {ρ : Env F} {γ γ' : Bindings F} {flow : Flow F}
  {task : NameTask F}

theorem NameRun.exec (h : NameRun S param task ρ γ flow γ') :
    Enough fun n j => task.exec S n j ρ = some (.ok flow) := by
  induction h with
  | assign hv => exact Sem.StmtEnds.assign hv
  | ret hv => exact Sem.StmtEnds.ret hv
  | brk => exact Sem.StmtEnds.brk (S := S)
  | cont => exact Sem.StmtEnds.cont (S := S)
  | ifElse htest _ ih => exact Sem.StmtEnds.ifElse htest ih
  | forRange ha hb _ ih => exact Sem.StmtEnds.forRange ha hb ih
  | whileDo _ ih => exact Sem.StmtEnds.whileDo ih
  | nil => exact Sem.BodyEnds.nil (S := S)
  | cons _ _ ih₁ ih₂ => exact Sem.BodyEnds.cons ih₁ ih₂
  | leave _ hne ih => exact Sem.BodyEnds.leave ih hne
  | turnsDone hb => exact Sem.ForEnds.done hb
  | turnsNext hb _ hagain hv _ ih₁ ih₂ => exact Sem.ForEnds.next hb ih₁ hagain hv ih₂
  | turnsLeave hb _ hleaves ih => exact Sem.ForEnds.leave hb ih hleaves
  | loopDone htest => exact Sem.WhileEnds.done htest
  | loopNext htest _ hagain _ ih₁ ih₂ => exact Sem.WhileEnds.next htest ih₁ hagain ih₂
  | loopLeave htest _ hleaves ih => exact Sem.WhileEnds.leave htest ih hleaves

/-- Every run of the body has its bindings beside it. -/
def Followed (S : Sem F) (param : String) (run : Env F → Res F) (task : NameTask F) : Prop :=
  ∀ {ρ flow}, run ρ = some (.ok flow) → ∀ γ, ∃ γ', NameRun S param task ρ γ flow γ'

theorem followed_forLoop {var : String} {a b : Val F} {body : List (Stmt F)} {n : ℕ}
    (hbody : Followed S param (S.execBody n body) (.body body)) (j k : ℕ) (same : Prop) :
    Followed S param (S.forLoop var b (S.execBody n body) j) (.turns var a b body k same) := by
  intro ρ flow h γ
  induction j generalizing ρ γ k same with
  | zero => cases h
  | succ j ih =>
    simp only [Sem.forLoop] at h
    cases hb : S.below ρ var b with
    | error f => simp [hb] at h
    | ok t =>
      rw [hb] at h
      cases t with
      | false =>
        cases h
        exact ⟨γ, .turnsDone hb⟩
      | true =>
        cases hr : S.execBody n body ρ with
        | none => simp [hr, loopNext] at h
        | some r =>
          cases r with
          | error f => simp [hr, loopNext] at h
          | ok turn =>
            obtain ⟨γ', hturn⟩ := hbody hr (γ.take param var (rangeItem a b k) same)
            rcases turn.again_or_leaves with ⟨ρ', ha⟩ | ⟨out, hl⟩
            · simp only [hr, loopNext_again ha] at h
              cases hv : S.bump ρ' var with
              | error f => simp [hv] at h
              | ok v =>
                rw [hv] at h
                obtain ⟨γ'', hrest⟩ := ih (k + 1) (γ'.Keeps var (rangeItem a b k)) h (γ'.lose var)
                exact ⟨γ'', .turnsNext hb hturn ha hv hrest⟩
            · simp only [hr, loopNext_leaves hl] at h
              cases h
              exact ⟨γ', .turnsLeave hb hturn hl⟩

theorem followed_whileLoop {cond : Expr F} {body : List (Stmt F)} {n : ℕ}
    (hbody : Followed S param (S.execBody n body) (.body body)) (j : ℕ) :
    Followed S param (S.whileLoop cond (S.execBody n body) j) (.loop cond body) := by
  intro ρ flow h γ
  induction j generalizing ρ γ with
  | zero => cases h
  | succ j ih =>
    simp only [Sem.whileLoop] at h
    cases htest : S.test ρ cond with
    | error f => simp [htest] at h
    | ok t =>
      rw [htest] at h
      cases t with
      | false =>
        cases h
        exact ⟨γ, .loopDone htest⟩
      | true =>
        cases hr : S.execBody n body ρ with
        | none => simp [hr, loopNext] at h
        | some r =>
          cases r with
          | error f => simp [hr, loopNext] at h
          | ok turn =>
            obtain ⟨γ', hturn⟩ := hbody hr γ
            rcases turn.again_or_leaves with ⟨ρ', ha⟩ | ⟨out, hl⟩
            · simp only [hr, loopNext_again ha] at h
              obtain ⟨γ'', hrest⟩ := ih h γ'
              exact ⟨γ'', .loopNext htest hturn ha hrest⟩
            · simp only [hr, loopNext_leaves hl] at h
              cases h
              exact ⟨γ', .loopLeave htest hturn hl⟩

mutual

theorem followed_stmt (n : ℕ) : ∀ stmt : Stmt F, Followed S param (S.execStmt n stmt) (.stmt stmt)
  | .assign name d value, ρ, flow, h, γ => by
    simp only [Sem.execStmt] at h
    cases hv : S.eval ρ value d with
    | error f => simp [hv] at h
    | ok v =>
      rw [hv] at h
      cases h
      exact ⟨_, .assign hv⟩
  | .ret value, ρ, flow, h, γ => by
    simp only [Sem.execStmt] at h
    cases hv : S.eval ρ value S.outputDtype with
    | error f => simp [hv] at h
    | ok v =>
      rw [hv] at h
      cases h
      exact ⟨_, .ret hv⟩
  | .brk, ρ, flow, h, γ => by
    cases h
    exact ⟨γ, .brk⟩
  | .cont, ρ, flow, h, γ => by
    cases h
    exact ⟨γ, .cont⟩
  | .ifElse test thenBody elseBody, ρ, flow, h, γ => by
    simp only [Sem.execStmt] at h
    cases htest : S.test ρ test with
    | error f => simp [htest] at h
    | ok b =>
      rw [htest] at h
      cases b with
      | true =>
        obtain ⟨γ', hrun⟩ := followed_body n thenBody h γ
        exact ⟨γ', .ifElse htest hrun⟩
      | false =>
        obtain ⟨γ', hrun⟩ := followed_body n elseBody h γ
        exact ⟨γ', .ifElse htest hrun⟩
  | .forRange var start stop body, ρ, flow, h, γ => by
    simp only [Sem.execStmt] at h
    cases ha : S.eval ρ start .i64 with
    | error f => simp [ha] at h
    | ok a =>
      cases hb : S.eval ρ stop .i64 with
      | error f => simp [ha, hb] at h
      | ok b =>
        simp only [ha, hb] at h
        obtain ⟨γ', hrun⟩ := followed_forLoop (followed_body n body) n 0 True h (γ.lose var)
        exact ⟨γ', .forRange ha hb hrun⟩
  | .whileDo cond body, ρ, flow, h, γ => by
    obtain ⟨γ', hrun⟩ := followed_whileLoop (followed_body n body) n h γ
    exact ⟨γ', .whileDo hrun⟩

theorem followed_body (n : ℕ) : ∀ body : List (Stmt F), Followed S param (S.execBody n body) (.body body)
  | [], ρ, flow, h, γ => by
    cases h
    exact ⟨γ, .nil⟩
  | stmt :: rest, ρ, flow, h, γ => by
    simp only [Sem.execBody] at h
    cases hr : S.execStmt n stmt ρ with
    | none => simp [hr, andThen] at h
    | some r =>
      cases r with
      | error f => simp [hr, andThen] at h
      | ok out =>
        obtain ⟨γ', hfirst⟩ := followed_stmt n stmt hr γ
        rw [hr] at h
        cases out with
        | normal ρ' =>
          obtain ⟨γ'', hrest⟩ := followed_body n rest h γ'
          exact ⟨γ'', .cons hfirst hrest⟩
        | brk | cont | ret =>
          cases h
          exact ⟨γ', .leave hfirst fun _ hne => by cases hne⟩

end

/-- The runs with bindings are the runs of the code. -/
theorem nameRun_iff {body : List (Stmt F)} :
    (∃ γ', NameRun S param (.body body) ρ γ flow γ') ↔ ∃ n, S.execBody n body ρ = some (.ok flow) := by
  constructor
  · rintro ⟨γ', h⟩
    exact h.exec.exists_self
  · rintro ⟨n, hn⟩
    exact followed_body n body hn γ

end Exec

/-! ## The names of the function -/

/-- The names that an expression reads, in the order of its code. -/
def PyExpr.names : PyExpr F → List String
  | .name id => [id]
  | .unaryOp _ operand => operand.names
  | .binOp left _ right => left.names ++ right.names
  | .compare left _ [right] => left.names ++ right.names
  | .ifExp test body orelse => test.names ++ (body.names ++ orelse.names)
  | .call _ [arg] _ => arg.names
  | _ => []

/-- The bounds of a `range`, the first of which may be left out. -/
def PyExpr.bounds : PyExpr F → List (PyExpr F)
  | .call _ [stop] _ => [.constant (.int 0), stop]
  | .call _ [start, stop] _ => [start, stop]
  | _ => []

mutual

/-- The expressions that a statement evaluates, wherever in it. -/
def PyStmt.allExprs : PyStmt F → List (PyExpr F)
  | .assign _ value => [value]
  | .augAssign target op value => [.binOp target op value]
  | .ret (some value) => [value]
  | .ifStmt test body orelse => test :: (pyBodyExprs body ++ pyBodyExprs orelse)
  | .forStmt _ iter body _ => iter.bounds ++ pyBodyExprs body
  | .whileStmt test body _ => test :: pyBodyExprs body
  | _ => []

def pyBodyExprs : List (PyStmt F) → List (PyExpr F)
  | [] => []
  | stmt :: rest => stmt.allExprs ++ pyBodyExprs rest

end

mutual

def Stmt.allExprs : Stmt F → List (Expr F)
  | .assign _ _ value | .ret value => [value]
  | .ifElse test thenBody elseBody => test :: (bodyExprs thenBody ++ bodyExprs elseBody)
  | .forRange _ start stop body => start :: stop :: bodyExprs body
  | .whileDo cond body => cond :: bodyExprs body
  | .brk | .cont => []

def bodyExprs : List (Stmt F) → List (Expr F)
  | [] => []
  | stmt :: rest => stmt.allExprs ++ bodyExprs rest

end

def NameTask.exprs : NameTask F → List (Expr F)
  | .stmt s => s.allExprs
  | .body b | .turns _ _ _ b _ _ => bodyExprs b
  | .loop cond b => cond :: bodyExprs b

/-- What the code of a name gives. -/
def Sem.resolve (S : Sem F) (param : String) (ρ : Env F) (name : String) : Except Fault (Val F) :=
  if name = param then .ok S.param else S.readLocal ρ name

/-- The reads of the code of an expression: the name, and what it gives. -/
def Sem.reads (S : Sem F) (param : String) (ρ : Env F) : Expr F → List (String × Except Fault (Val F))
  | .param => [(param, .ok S.param)]
  | .localVar name => [(name, S.readLocal ρ name)]
  | .constI64 _ | .constF64 _ | .constBool _ => []
  | .unary _ operand | .mathCall _ operand | .castToI64 operand | .castToF64 operand =>
    S.reads param ρ operand
  | .binOp _ left right | .compare _ left right => S.reads param ρ left ++ S.reads param ρ right
  | .ifExpr test yes no => S.reads param ρ test ++ (S.reads param ρ yes ++ S.reads param ρ no)

/-- The code reads the names of the expression, and each as the code of this name. -/
def Expr.CodeOf (ir : Expr F) (param : String) (e : PyExpr F) : Prop :=
  ∀ (S : Sem F) (ρ : Env F), S.reads param ρ ir = e.names.map fun name => (name, S.resolve param ρ name)

section Names
variable {S : Sem F} {ρ : Env F} {w w' : Walker} {param : String} {e : PyExpr F} {ir : Expr F} {d t : Dtype}

@[simp] theorem Sem.reads_liftTo (S : Sem F) (param : String) (ρ : Env F) (ir : Expr F) (d t : Dtype) :
    S.reads param ρ (liftTo ir d t) = S.reads param ρ ir := by
  unfold liftTo
  split
  · rfl
  · cases t <;> rfl

theorem Expr.CodeOf.liftTo (h : ir.CodeOf param e) (d t : Dtype) : (liftTo ir d t).CodeOf param e :=
  fun S ρ => (S.reads_liftTo param ρ ir d t).trans (h S ρ)

/-- The walker's expressions read the names that it has met, in the same order. -/
theorem Accepts.codeOf (h : Accepts w e ir d) : ir.CodeOf w.param e := by
  intro S ρ
  induction h with
  | param => simp [Sem.reads, PyExpr.names, Sem.resolve]
  | localVar hne _ => simp [Sem.reads, PyExpr.names, Sem.resolve, hne]
  | bool | int | float => rfl
  | unaryOp _ _ ih => exact ih
  | math _ _ ih | toInt _ ih | toFloat _ ih => simpa [Sem.reads, PyExpr.names] using ih
  | binOp _ _ _ _ ihl ihr | compare _ _ _ ihl ihr => simp [Sem.reads, PyExpr.names, ihl, ihr]
  | ifExp _ _ _ iht ihy ihn => simp [Sem.reads, PyExpr.names, iht, ihy, ihn]

theorem AcceptsRange.codeOf {iter : PyExpr F} {start stop : Expr F} (h : AcceptsRange w iter start stop) :
    (∃ e ∈ iter.bounds, start.CodeOf w.param e) ∧ ∃ e ∈ iter.bounds, stop.CodeOf w.param e := by
  cases h with
  | stop hb =>
    exact ⟨⟨_, List.mem_cons_self, fun _ _ => rfl⟩,
      _, List.mem_cons_of_mem _ List.mem_cons_self, hb.codeOf.liftTo _ _⟩
  | startStop ha hb =>
    exact ⟨⟨_, List.mem_cons_self, ha.codeOf.liftTo _ _⟩,
      _, List.mem_cons_of_mem _ List.mem_cons_self, hb.codeOf.liftTo _ _⟩

/-- Every expression of the code is that of an expression of the list. -/
def CodesOf (irs : List (Expr F)) (param : String) (es : List (PyExpr F)) : Prop :=
  ∀ ir ∈ irs, ∃ e ∈ es, ir.CodeOf param e

theorem CodesOf.cons {irs : List (Expr F)} {es : List (PyExpr F)} (h : ∃ e ∈ es, ir.CodeOf param e)
    (hrest : CodesOf irs param es) : CodesOf (ir :: irs) param es := by
  rintro x hx
  rcases List.mem_cons.mp hx with rfl | hx
  · exact h
  · exact hrest x hx

theorem CodesOf.append {irs irs' : List (Expr F)} {es es' : List (PyExpr F)} (h : CodesOf irs param es)
    (h' : CodesOf irs' param es') : CodesOf (irs ++ irs') param (es ++ es') := by
  intro x hx
  rcases List.mem_append.mp hx with hx | hx
  · obtain ⟨e, he, hcode⟩ := h x hx
    exact ⟨e, List.mem_append_left _ he, hcode⟩
  · obtain ⟨e, he, hcode⟩ := h' x hx
    exact ⟨e, List.mem_append_right _ he, hcode⟩

theorem CodesOf.mono {irs : List (Expr F)} {es es' : List (PyExpr F)} (h : CodesOf irs param es)
    (hsub : es ⊆ es') : CodesOf irs param es' := by
  intro x hx
  obtain ⟨e, he, hcode⟩ := h x hx
  exact ⟨e, hsub he, hcode⟩

theorem CodesOf.one (h : ir.CodeOf param e) : CodesOf [ir] param [e] :=
  fun _ hx => ⟨e, List.mem_singleton_self e, List.mem_singleton.mp hx ▸ h⟩

mutual

theorem AcceptsStmt.codesOf : ∀ {w w' : Walker} {stmt : PyStmt F} {ir : Stmt F} {term : Bool},
    AcceptsStmt w stmt ir term w' → CodesOf ir.allExprs w.param stmt.allExprs ∧ w'.param = w.param
  | _, _, _, _, _, .assign h => ⟨.one h.codeOf, rfl⟩
  | _, _, _, _, _, .augAssign _ _ hl hr => by
    refine ⟨.one fun S ρ => ?_, rfl⟩
    simp [Sem.reads, PyExpr.names, hl.codeOf S ρ, hr.codeOf S ρ]
  | _, _, _, _, _, .ret h hret => by
    obtain ⟨rfl, -⟩ := Walker.recordReturn_eq_ok hret
    exact ⟨.one h.codeOf, rfl⟩
  | _, _, _, _, _, .ifStmt h hthen helse => by
    obtain ⟨hthen, hparam⟩ := hthen.codesOf
    obtain ⟨helse, hparam'⟩ := helse.codesOf
    rw [hparam] at helse hparam'
    exact ⟨(CodesOf.one h.codeOf).append (hthen.append helse), hparam'⟩
  | _, _, _, _, _, .forStmt h hbody => by
    obtain ⟨hbody, hparam⟩ := hbody.codesOf
    obtain ⟨⟨e, he, hstart⟩, e', he', hstop⟩ := h.codeOf
    refine ⟨.cons ⟨e, List.mem_append_left _ he, hstart⟩ (.cons ⟨e', List.mem_append_left _ he', hstop⟩ ?_),
      hparam⟩
    exact hbody.mono (List.subset_append_right _ _)
  | _, _, _, _, _, .whileStmt h hbody => by
    obtain ⟨hbody, hparam⟩ := hbody.codesOf
    exact ⟨(CodesOf.one h.codeOf).append hbody, hparam⟩
  | _, _, _, _, _, .brk | _, _, _, _, _, .cont => ⟨fun _ hx => absurd hx List.not_mem_nil, rfl⟩

theorem AcceptsBody.codesOf : ∀ {w w' : Walker} {first : Bool} {body : List (PyStmt F)}
    {irs : List (Stmt F)} {term : Bool}, AcceptsBody w first body irs term w' →
    CodesOf (bodyExprs irs) w.param (pyBodyExprs body) ∧ w'.param = w.param
  | _, _, _, _, _, _, .nil => ⟨fun _ hx => absurd hx List.not_mem_nil, rfl⟩
  | _, _, _, _, _, _, .docstring _ hrest => by
    obtain ⟨hrest, hparam⟩ := hrest.codesOf
    exact ⟨hrest.mono (List.subset_append_right _ _), hparam⟩
  | _, _, _, _, _, _, .last hstmt => by
    obtain ⟨hstmt, hparam⟩ := hstmt.codesOf
    refine ⟨fun x hx => ?_, hparam⟩
    rw [bodyExprs, bodyExprs, List.append_nil] at hx
    exact (hstmt.mono (List.subset_append_left _ _)) x hx
  | _, _, _, _, _, _, .cons hstmt hrest => by
    obtain ⟨hstmt, hparam⟩ := hstmt.codesOf
    obtain ⟨hrest, hparam'⟩ := hrest.codesOf
    rw [hparam] at hrest hparam'
    exact ⟨hstmt.append hrest, hparam'⟩

end

/-- The points of an execution are at expressions of what is executed. -/
theorem Visits.mem_exprs {p : ReadPoint F} {task : NameTask F} {γ : Bindings F}
    (h : Visits S param p task ρ γ) : p.expr ∈ task.exprs := by
  induction h with
  | assign | ret => exact List.mem_singleton_self _
  | test | start | loopTest => exact List.mem_cons_self
  | stop => exact List.mem_cons_of_mem _ List.mem_cons_self
  | @branch _ _ _ _ _ b _ _ ih =>
    refine List.mem_cons_of_mem _ ?_
    cases b with
    | true => exact List.mem_append_left _ ih
    | false => exact List.mem_append_right _ ih
  | forRange _ _ _ ih => exact List.mem_cons_of_mem _ (List.mem_cons_of_mem _ ih)
  | whileDo _ ih | laterLoop _ _ _ _ ih | turn _ _ ih | laterTurn _ _ _ _ _ ih => exact ih
  | head _ ih => exact List.mem_append_left _ ih
  | tail _ _ ih => exact List.mem_append_right _ ih
  | loopTurn _ _ ih => exact List.mem_cons_of_mem _ ih

end Names

/-! ## The claim about an execution -/

namespace ReadPoint
variable (S : Sem F) (param : String) (p : ReadPoint F)

def reads : List (String × Except Fault (Val F)) := S.reads param p.vars p.expr

/-- Every name that is read is live. -/
def Live : Prop := ∀ r ∈ p.reads S param, r.1 ∈ p.bindings.live

/-- Every name that is read gives the value bound last. -/
def Denotes : Prop := ∀ r ∈ p.reads S param, ∃ v, r.2 = .ok v ∧ p.bindings.latest r.1 = some v

end ReadPoint

section Main
variable {fl : FloatOps F} {node : FnNode F} {d : Dtype} {k : Kernel F} {g : Compiled F} {param : String}

/-- **What a name denotes.** At every point that an execution of an accepted function comes to,
the code reads the names of an expression of the function, and when they are live, each gives
the value that Python has bound to it last. -/
theorem live_names_denote_latest (htry : tryCompile fl (some node) d = .compiled k g)
    (hparams : node.params = [param]) (x : Val F) (ρ : Env F) {p : ReadPoint F}
    (hp : Visits (k.sem fl false x) param p (.body k.body) ρ (.entry param x)) :
    (∃ e ∈ pyBodyExprs node.stmts, (p.reads (k.sem fl false x) param).map Prod.fst = e.names) ∧
      (p.Live (k.sem fl false x) param → p.Denotes (k.sem fl false x) param) := by
  obtain ⟨⟨node', hnode, hwalk⟩, -, -⟩ := tryCompile_eq_compiled htry
  cases hnode
  obtain ⟨param', w', hparams', hacc, -, -⟩ := walkFunction_accepts hwalk
  rw [hparams] at hparams'
  cases hparams'
  obtain ⟨e, he, hcode⟩ := hacc.codesOf.1 p.expr hp.mem_exprs
  have hreads : p.reads (k.sem fl false x) param =
      e.names.map fun name => (name, (k.sem fl false x).resolve param p.vars name) := hcode _ _
  have hholds := hp.holds (Bindings.holds_entry (k.sem fl false x) param ρ)
  refine ⟨⟨e, he, by rw [hreads, List.map_map]; exact List.map_id _⟩, fun hlive r hr => ?_⟩
  have hr' := hlive r hr
  rw [hreads] at hr
  obtain ⟨name, -, rfl⟩ := List.mem_map.mp hr
  by_cases hname : name = param
  · subst hname
    exact ⟨x, if_pos rfl, hholds.arg hr'⟩
  · obtain ⟨v, hread, hv⟩ := hholds.var name hr' hname
    exact ⟨v, (if_neg hname).trans hread, hv⟩

end Main

/-- In the first turn of `for i in range(x): y = i` at `3`. -/
theorem live_names_denote_latest_lastIndex : ∃ g,
    tryCompile bitPython.fl (some lastIndex) .i64 = .compiled lastIndexKernel g ∧
    ∀ ρ, ∃ p, Visits (lastIndexSem 3) "x" p (.body lastIndexKernel.body) ρ (.entry "x" (.i64 3)) ∧
      p.expr = .localVar "i" ∧ p.bindings.latest "i" = some (.i64 0) ∧ p.Denotes (lastIndexSem 3) "x" := by
  obtain ⟨g, hg⟩ : ∃ g, compile bitPython.fl lastIndexKernel = .ok g := ⟨_, rfl⟩
  have hcompiled : tryCompile bitPython.fl (some lastIndex) .i64 = .compiled lastIndexKernel g :=
    tryCompile_of_compile rfl rfl hg
  refine ⟨g, hcompiled, fun ρ => ?_⟩
  let γ : Bindings (BitVec 64) := ((Bindings.entry "x" (.i64 3)).lose "i").take "x" "i" (some (.i64 0)) True
  have hvisits : Visits (lastIndexSem 3) "x" ⟨.localVar "i", ρ.set "i" (.i64 0), γ⟩
      (.body lastIndexKernel.body) ρ (.entry "x" (.i64 3)) :=
    .head (.forRange (a := .i64 0) (b := .i64 3) rfl rfl (.turn rfl (.head .assign)))
  refine ⟨_, hvisits, rfl, rfl, (live_names_denote_latest hcompiled rfl (.i64 3) ρ hvisits).2 ?_⟩
  intro r hr
  obtain rfl := List.mem_singleton.mp hr
  exact .inr ⟨rfl, (by decide : "i" ≠ "x"), rfl, trivial⟩

/-- `def f(x):`, `x = x + 1`, `return x` -/
def rebound : FnNode (BitVec 64) :=
  .functionDef ["x"] [.assign [.name "x"] (.binOp (.name "x") .add (.constant (.int 1))),
    .ret (some (.name "x"))]

def reboundKernel : Kernel (BitVec 64) where
  inputDtype := .i64
  outputDtype := .i64
  body := [.assign "x" .i64 (.binOp .add .param (.constI64 1)), .ret .param]

/-- At `5` Python returns `6`, and the code the argument. -/
theorem rebound_five : (∃ g, tryCompile bitPython.fl (some rebound) .i64 = .compiled reboundKernel g) ∧
    bitPython.call 0 rebound (.int 5) = some (.ok (some (.int 6))) ∧
    ∀ ρ, (reboundKernel.sem bitPython.fl false (.i64 5)).Computes reboundKernel.body ρ (.value (.i64 5)) ∧
      ∃ p, Visits (reboundKernel.sem bitPython.fl false (.i64 5)) "x" p (.body reboundKernel.body) ρ
          (.entry "x" (.i64 5)) ∧
        p.reads (reboundKernel.sem bitPython.fl false (.i64 5)) "x" = [("x", .ok (.i64 5))] ∧
        p.bindings.latest "x" = some (.i64 6) ∧
        ¬ p.Denotes (reboundKernel.sem bitPython.fl false (.i64 5)) "x" := by
  obtain ⟨g, hg⟩ : ∃ g, compile bitPython.fl reboundKernel = .ok g := ⟨_, rfl⟩
  refine ⟨⟨g, tryCompile_of_compile rfl rfl hg⟩, rfl, fun ρ => ⟨.ends (n := 1) rfl rfl, ?_⟩⟩
  let γ : Bindings (BitVec 64) := (Bindings.entry "x" (.i64 5)).bind "x" "x" (.i64 6)
  refine ⟨⟨.param, ρ.set "x" (.i64 6), γ⟩, .tail (.assign rfl) (.head .ret), rfl, rfl, fun h => ?_⟩
  obtain ⟨v, hv, hlatest⟩ := h ("x", .ok (.i64 5)) (List.mem_singleton_self _)
  cases hv
  have hsame : some (Val.i64 6 : Val (BitVec 64)) = some (.i64 5) := hlatest
  exact absurd hsame (by decide)

end Gilmap
