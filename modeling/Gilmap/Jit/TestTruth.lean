import Gilmap.Jit.SafeExprs
import Gilmap.Python.HostFloats

/-! # What a test decides on

Every test is lowered at I64, whatever its dtype, so the code decides on another expression
than the one that is written, on the truncated one: each float in it is read through
`fcvt_to_sint`.
-/
namespace Gilmap
open Library
variable {F : Type}

/-! ## Which way the code goes -/

/-- Which way a `brif` goes, and which arm a `select` takes. -/
def ClExpr.decides (fl : FloatOps F) (vars vals : ℕ → Val F) (c : ClExpr F) : Except Fault Bool :=
  c.eval fl vars vals >>= Val.truthy

section Decision
variable {py : PyFloats F} {w : Walker} {cx : LowerCx} {Γ : Locals} {varTys valTys : ℕ → ClTy}
  {vars vals : ℕ → Val F} {fr : SafeFrame F} {pf : PyFrame F} {e : PyExpr F} {ir : Expr F} {d : Dtype}
  {c : ClExpr F}

/-- The meaning of the IR on the values of the machine. -/
def LowerCx.sem (cx : LowerCx) (fl : FloatOps F) (Γ : Locals) (x : Val F) : Sem F where
  fl := fl
  inputDtype := cx.inputDtype
  outputDtype := cx.outputDtype
  locals := Γ.dtype
  param := x
  strict := false

end Decision

end Gilmap
