import Gilmap.Ir.Semantics
import Gilmap.Library.Fuel

/-! # Rules of the runs

How the runs of statements, bodies and loops follow from the runs of their parts, the fuel
aside.
-/
namespace Gilmap.Sem
open Library
variable {F : Type} (S : Sem F)

/-- The statement ends so, with enough fuel. -/
def StmtEnds (stmt : Stmt F) (ρ : Env F) (o : Except Fault (Flow F)) : Prop :=
  Enough fun n _ => S.execStmt n stmt ρ = some o

def BodyEnds (body : List (Stmt F)) (ρ : Env F) (o : Except Fault (Flow F)) : Prop :=
  Enough fun n _ => S.execBody n body ρ = some o

/-- A `for` that has come to its header ends so. -/
def ForEnds (var : String) (stop : Val F) (body : List (Stmt F)) (ρ : Env F)
    (o : Except Fault (Flow F)) : Prop :=
  Enough fun n j => S.forLoop var stop (S.execBody n body) j ρ = some o

def WhileEnds (cond : Expr F) (body : List (Stmt F)) (ρ : Env F) (o : Except Fault (Flow F)) : Prop :=
  Enough fun n j => S.whileLoop cond (S.execBody n body) j ρ = some o

end Gilmap.Sem

namespace Gilmap
variable {F : Type}

/-- An end that no statement or loop around changes: a fault or a `return`. -/
inductive Final : Except Fault (Flow F) → Prop
  | fault (f : Fault) : Final (.error f)
  | ret (v : Val F) (ρ : Env F) : Final (.ok (.ret v ρ))

theorem Final.loopNext {o : Except Fault (Flow F)} (h : Final o) (again : Env F → Res F) :
    loopNext (some o) again = some o := by
  cases h <;> rfl

theorem Final.andThen {o : Except Fault (Flow F)} (h : Final o) (k : Env F → Res F) :
    andThen (some o) k = some o := by
  cases h <;> rfl

end Gilmap

namespace Gilmap.Sem
open Library
variable {F : Type} (S : Sem F)

section Rules
variable {S} {ρ ρ' : Env F} {flow flow' : Flow F} {name var : String} {d : Dtype} {stmt : Stmt F}
  {value test cond start stop : Expr F} {body rest thenBody elseBody : List (Stmt F)} {a b v : Val F}
  {o : Except Fault (Flow F)} {f : Fault}

/-! ## Statements -/

theorem StmtEnds.assign (h : S.eval ρ value d = .ok v) :
    S.StmtEnds (.assign name d value) ρ (.ok (.normal (ρ.set name v))) := by
  apply Enough.always
  intro n j
  simp only [execStmt, h]

theorem StmtEnds.ret (h : S.eval ρ value S.outputDtype = .ok v) :
    S.StmtEnds (.ret value) ρ (.ok (.ret v ρ)) := by
  apply Enough.always
  intro n j
  simp only [execStmt, h]

theorem StmtEnds.brk : S.StmtEnds .brk ρ (.ok (.brk ρ)) := .always fun _ _ => rfl

theorem StmtEnds.cont : S.StmtEnds .cont ρ (.ok (.cont ρ)) := .always fun _ _ => rfl

theorem StmtEnds.ifElse {c : Bool} (hc : S.test ρ test = .ok c)
    (h : S.BodyEnds (if c then thenBody else elseBody) ρ o) :
    S.StmtEnds (.ifElse test thenBody elseBody) ρ o := by
  apply h.imp
  intro n j hbody
  simp only [execStmt, hc]
  cases c <;> exact hbody

theorem StmtEnds.forRange (ha : S.eval ρ start .i64 = .ok a) (hb : S.eval ρ stop .i64 = .ok b)
    (h : S.ForEnds var b body (ρ.set var a) o) :
    S.StmtEnds (.forRange var start stop body) ρ o := by
  apply h.enter
  intro n j hturns
  simp only [execStmt, ha, hb]
  exact hturns

theorem StmtEnds.whileDo (h : S.WhileEnds cond body ρ o) : S.StmtEnds (.whileDo cond body) ρ o :=
  h.enter fun _ _ hloop => hloop

/-! ### Faults -/

theorem StmtEnds.assign_fault (h : S.eval ρ value d = .error f) :
    S.StmtEnds (.assign name d value) ρ (.error f) := by
  apply Enough.always
  intro n j
  simp only [execStmt, h]

theorem StmtEnds.ret_fault (h : S.eval ρ value S.outputDtype = .error f) :
    S.StmtEnds (.ret value) ρ (.error f) := by
  apply Enough.always
  intro n j
  simp only [execStmt, h]

theorem StmtEnds.ifElse_fault (h : S.test ρ test = .error f) :
    S.StmtEnds (.ifElse test thenBody elseBody) ρ (.error f) := by
  apply Enough.always
  intro n j
  simp only [execStmt, h]

theorem StmtEnds.exists_forRange_fault
    (h : (∃ f, S.eval ρ start .i64 = .error f) ∨ ∃ f, S.eval ρ stop .i64 = .error f) :
    ∃ f, S.StmtEnds (.forRange var start stop body) ρ (.error f) := by
  cases ha : S.eval ρ start .i64 with
  | error f => exact ⟨f, .always fun n j => by simp only [execStmt, ha]⟩
  | ok a =>
    rcases h with ⟨f, h⟩ | ⟨f, h⟩
    · rw [ha] at h
      cases h
    · exact ⟨f, .always fun n j => by simp only [execStmt, ha, h]⟩

/-! ## Bodies -/

theorem BodyEnds.nil : S.BodyEnds [] ρ (.ok (.normal ρ)) := .always fun _ _ => rfl

theorem BodyEnds.cons (h : S.StmtEnds stmt ρ (.ok (.normal ρ'))) (hrest : S.BodyEnds rest ρ' o) :
    S.BodyEnds (stmt :: rest) ρ o := by
  refine (h.and hrest).imp ?_
  rintro n j ⟨hfirst, hrest⟩
  simp only [execBody, hfirst, andThen, hrest]

/-- Behind a statement that does not end normally nothing is run. -/
theorem BodyEnds.leave (h : S.StmtEnds stmt ρ (.ok flow)) (hne : ∀ ρ', flow ≠ .normal ρ') :
    S.BodyEnds (stmt :: rest) ρ (.ok flow) := by
  apply h.imp
  intro n j hfirst
  simp only [execBody, hfirst]
  cases flow with
  | normal => exact absurd rfl (hne _)
  | brk | cont | ret => rfl

theorem BodyEnds.final (h : S.StmtEnds stmt ρ o) (ho : Final o) : S.BodyEnds (stmt :: rest) ρ o := by
  apply h.imp
  intro n j hfirst
  simp only [execBody, hfirst, ho.andThen]

/-! ## Loops -/

theorem ForEnds.done (h : S.below ρ var b = .ok false) : S.ForEnds var b body ρ (.ok (.normal ρ)) := by
  apply Enough.last
  intro n j
  simp only [forLoop, h]

theorem ForEnds.next (h : S.below ρ var b = .ok true) (hbody : S.BodyEnds body ρ (.ok flow))
    (hagain : flow.again = some ρ') (hbump : S.bump ρ' var = .ok v)
    (hrest : S.ForEnds var b body (ρ'.set var v) o) : S.ForEnds var b body ρ o := by
  refine (hbody.and hrest).turn ?_
  rintro n j ⟨hturn, hrest⟩
  simp only [forLoop, h, hturn, loopNext_again hagain, hbump, hrest]

theorem ForEnds.leave (h : S.below ρ var b = .ok true) (hbody : S.BodyEnds body ρ (.ok flow))
    (hleaves : flow.leaves = some flow') : S.ForEnds var b body ρ (.ok flow') := by
  apply hbody.turn
  intro n j hturn
  simp only [forLoop, h, hturn, loopNext_leaves hleaves]

theorem ForEnds.final (h : S.below ρ var b = .ok true) (hbody : S.BodyEnds body ρ o) (ho : Final o) :
    S.ForEnds var b body ρ o := by
  apply hbody.turn
  intro n j hturn
  simp only [forLoop, h, hturn, ho.loopNext]

theorem WhileEnds.done (h : S.test ρ cond = .ok false) :
    S.WhileEnds cond body ρ (.ok (.normal ρ)) := by
  apply Enough.last
  intro n j
  simp only [whileLoop, h]

theorem WhileEnds.next (h : S.test ρ cond = .ok true) (hbody : S.BodyEnds body ρ (.ok flow))
    (hagain : flow.again = some ρ') (hrest : S.WhileEnds cond body ρ' o) :
    S.WhileEnds cond body ρ o := by
  refine (hbody.and hrest).turn ?_
  rintro n j ⟨hturn, hrest⟩
  simp only [whileLoop, h, hturn, loopNext_again hagain, hrest]

theorem WhileEnds.leave (h : S.test ρ cond = .ok true) (hbody : S.BodyEnds body ρ (.ok flow))
    (hleaves : flow.leaves = some flow') : S.WhileEnds cond body ρ (.ok flow') := by
  apply hbody.turn
  intro n j hturn
  simp only [whileLoop, h, hturn, loopNext_leaves hleaves]

theorem WhileEnds.final (h : S.test ρ cond = .ok true) (hbody : S.BodyEnds body ρ o) (ho : Final o) :
    S.WhileEnds cond body ρ o := by
  apply hbody.turn
  intro n j hturn
  simp only [whileLoop, h, hturn, ho.loopNext]

theorem WhileEnds.fault (h : S.test ρ cond = .error f) : S.WhileEnds cond body ρ (.error f) := by
  apply Enough.last
  intro n j
  simp only [whileLoop, h]

end Rules

end Gilmap.Sem
