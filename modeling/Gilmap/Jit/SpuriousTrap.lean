import Gilmap.Jit.NoTrap
import Gilmap.Jit.Outcomes
import Gilmap.Jit.SafeRules

/-! # Spurious traps

A call of compiled code on elements at which Python's call is safe returns. Where Python's own
run is fine and still not safe the code may trap: it evaluates both arms of a ternary.
-/
namespace Gilmap
open Library
variable {F : Type}

/-! ## One element -/

section Element
variable {py : PyFloats F} {node : FnNode F} {k : Kernel F} {ρ : Env F} {v : PyVal F} {x : Val F}
  {d : Dtype} {param : String}

/-- Where a round begins the code holds the argument, and nothing else is known. -/
theorem FnNode.safeStart_tracks (param : String) (hρ : k.HoldsLocals ρ) (hty : x.ty = clType k.inputDtype)
    (hstands : py.Stands k.inputDtype v x) :
    (node.safeStart param v).known.Tracks py (k.walker param) (k.sem py.fl false x) ρ where
  fl := rfl
  declared := ⟨rfl, fun _ _ hl => hl⟩
  param := rfl
  heldBy := {
    held := hρ.held py.fl hty
    arg := fun u hu => by
      cases hu
      exact hstands
    locals := fun name u hu => by cases hu }

theorem Kernel.walker_tables (k : Kernel F) (fl : FloatOps F) (param : String) (x : Val F) :
    (k.walker param).Tables (k.sem fl false x) := ⟨rfl, fun _ => rfl⟩

/-- The walker has made the body of the kernel of that of the function. -/
theorem walkFunction_bodyCode (hwalk : walkFunction d node = some k) (hparams : node.params = [param])
    (hty : (k.sem py.fl false x).bodyTyped k.body) :
    BodyCode param (k.sem py.fl false x) node.stmts k.body := by
  obtain ⟨param', w, hparams', hacc, -, hout⟩ := walkFunction_accepts hwalk
  rw [hparams] at hparams'
  cases hparams'
  refine ⟨_, _, _, _, hacc, ⟨rfl, ?_, fun _ _ hl => by cases hl⟩, hty, fun d' hd' => ?_⟩
  · exact (walkFunction_inputDtype hwalk).symm
  · rw [hd'] at hout
    exact hout.symm

/-- The body returns at an element at which Python's call is safe. -/
theorem PyFloats.SafeCall.computes (h : py.SafeCall k node v) (hwalk : walkFunction d node = some k)
    (hty : (k.sem py.fl false x).bodyTyped k.body) (hx : x.ty = clType k.inputDtype)
    (hstands : py.Stands k.inputDtype v x) (hρ : k.HoldsLocals ρ) :
    ∃ y, (k.sem py.fl false x).Computes k.body ρ (.value y) := by
  obtain ⟨param, u, hparams, hrun⟩ := h
  have hcode := walkFunction_bodyCode hwalk hparams hty
  obtain ⟨cflow, hflow, hexec⟩ := hrun.code (k.walker_tables py.fl param x) (.body hcode)
    (FnNode.safeStart_tracks param hρ hx hstands)
  obtain ⟨n, hn⟩ := hexec.exists_self
  cases hflow with
  | ret => exact ⟨_, .ends hn rfl⟩

/-- The body traps at an element at which Python's run comes to a step that does. -/
theorem PyFloats.TrapCall.computes (h : py.TrapCall k node v) (hwalk : walkFunction d node = some k)
    (hty : (k.sem py.fl false x).bodyTyped k.body) (hx : x.ty = clType k.inputDtype)
    (hstands : py.Stands k.inputDtype v x) (hρ : k.HoldsLocals ρ) :
    ∃ f, (k.sem py.fl false x).Computes k.body ρ (.fault f) := by
  obtain ⟨param, hparams, hreaches⟩ := h
  have hcode := walkFunction_bodyCode hwalk hparams hty
  obtain ⟨f, hexec⟩ := hreaches.traps (k.walker_tables py.fl param x) (.body hcode)
    (FnNode.safeStart_tracks param hρ hx hstands)
  obtain ⟨n, hn⟩ := hexec.exists_self
  exact ⟨f, .ends hn rfl⟩

end Element

/-! ## Whole calls -/

section Calls
variable {fl : FloatOps F} {node : FnNode F} {k : Kernel F} {g : Compiled F} {inPtr outPtr len : Addr}
  {m : Mem F} {d : Dtype} {x : Val F} {r : ElemResult F}

end Calls

/-! ## The claim about a call -/

section Main
variable {py : PyFloats F} {node : FnNode F} {k : Kernel F} {g : Compiled F} {inPtr outPtr len : Addr}
  {m : Mem F}

end Main

section Guarded
variable {b : BitVec 64}

end Guarded

/-- `lambda x: 10 // (x // 2 + 1)` -/
def tenOverNext : FnNode (BitVec 64) :=
  .lambda ["x"] (.binOp (.constant (.int 10)) .floorDiv
    (.binOp (.binOp (.name "x") .floorDiv (.constant (.int 2))) .add (.constant (.int 1))))

def tenOverNextKernel : Kernel (BitVec 64) where
  inputDtype := .i64
  outputDtype := .i64
  body := [.ret (.binOp .floorDiv (.constI64 10)
    (.binOp .add (.binOp .floorDiv .param (.constI64 2)) (.constI64 1)))]

/-- Behind a quotient that is rounded the other way the code may trap, as at `-3`, or not, as
at `-5`. -/
example : walkFunction .i64 tenOverNext = some tenOverNextKernel ∧
    bitPython.call 0 tenOverNext (.int (-3)) = some (.ok (some (.int (-10)))) ∧
    (tenOverNextKernel.sem bitPython.fl false (.i64 (-3))).execBody 0 tenOverNextKernel.body Env.empty =
      some (.error (.trap .intDivByZero)) ∧
    bitPython.call 0 tenOverNext (.int (-5)) = some (.ok (some (.int (-5)))) ∧
    (tenOverNextKernel.sem bitPython.fl false (.i64 (-5))).execBody 0 tenOverNextKernel.body Env.empty =
      some (.ok (.ret (.i64 (-10)) Env.empty)) :=
  ⟨rfl, rfl, rfl, rfl, rfl⟩

/-! ### A function with a float on its way -/

/-- `def f(x): y = math.floor(x * 0.5); return 10 // (int(y) + 1)`, with `half` for `0.5` -/
def tenOverHalf (half : F) : FnNode F :=
  .functionDef ["x"]
    [.assign [.name "y"] (.call (.attribute (.name "math") "floor")
      [.binOp (.name "x") .mult (.constant (.float half))] []),
    .ret (some (.binOp (.constant (.int 10)) .floorDiv
      (.binOp (.call (.name "int") [.name "y"] []) .add (.constant (.int 1)))))]

def tenOverHalfKernel (half : F) : Kernel F where
  inputDtype := .i64
  outputDtype := .i64
  body := [.assign "y" .f64 (.mathCall .floor (.binOp .mul (.castToF64 .param) (.constF64 half))),
    .ret (.binOp .floorDiv (.constI64 10) (.binOp .add (.castToI64 (.localVar "y")) (.constI64 1)))]

theorem tenOverHalf_walks (half : F) :
    walkFunction .i64 (tenOverHalf half) = some (tenOverHalfKernel half) := rfl

/-- The integer that `y` is to Python and the float that it is to the code have one truncation:
only the zero divisor, at which Python raises, is left out. -/
theorem tenOverHalf_safe {py : PyFloats F} (hpy : py.Lawful) {half x : F} {b : BitVec 64} {n : ℤ}
    (hx : py.ofInt b.toInt = .ok x) (hn : py.floor (py.fl.bin .fmul x half) = .ok n)
    (heq : py.cmpInt .eq n (py.fl.libm .floor (py.fl.bin .fmul x half)) = true) (hfits : Fits 64 n)
    (hnext : Fits 64 (n + 1)) (hzero : n + 1 ≠ 0) :
    py.SafeCall (tenOverHalfKernel half) (tenOverHalf half) (.int b.toInt) := by
  let s : SafeState F := (tenOverHalf half).safeStart "x" (.int b.toInt)
  let w : Walker := (tenOverHalfKernel half).walker "x"
  have hproduct : py.SafeFloat w s.known.view (.binOp (.name "x") .mult (.constant (.float half)))
      (py.fl.bin .fmul x half) := .binOp hpy rfl (.word (.name rfl rfl) hx) (.float .const) rfl rfl rfl rfl
  obtain ⟨hsafe, -⟩ := hproduct.floor rfl rfl hn heq
  have hword : py.SafeWord w (s.bind "y" (.int n)).known.view
      (.binOp (.call (.name "int") [.name "y"] []) .add (.constant (.int 1))) (n + 1) :=
    .binOp rfl rfl (.toInt hpy rfl (.name rfl) rfl rfl rfl hfits rfl) (.int (by decide)) rfl rfl hnext
      nofun nofun
  refine ⟨"x", .int ((10 : ℤ).fdiv (n + 1)), rfl, .cons (.assign (.safe hsafe ?_))
    (.leave (.ret (.quotient_word (.int (by decide)) hword hzero (by omega)) ?_) nofun)⟩
  · show ((py.ofInt b.toInt >>= fun a => py.floatOp .mul a half) >>= py.mathCall .floor) = _
    rw [hx]
    show (py.floor (py.fl.bin .fmul x half)).map PyVal.int = _
    rw [hn]
    rfl
  · exact if_neg hzero

end Gilmap
