import Gilmap.Jit.InStep

/-! # The emitted IR is well typed

The type system of the IR, with one dtype for each local of a kernel, and the proof that a
kernel of the walker has a typing as soon as the code generator lowers it: the dtypes at
which the code generator has declared the locals.
-/
namespace Gilmap
variable {F : Type}

/-! ## The type system -/

/-- The common dtype of two operands. -/
def sameDtype : Option Dtype → Option Dtype → Option Dtype
  | some a, some b => if a = b then some a else none
  | _, _ => none

/-- The dtype of an expression, where it has one. -/
def Expr.dtypeIn (inputDtype : Dtype) (locals : String → Option Dtype) : Expr F → Option Dtype
  | .param => some inputDtype
  | .localVar name => locals name
  | .constI64 _ | .constBool _ => some .i64
  | .constF64 _ => some .f64
  | .unary _ operand => operand.dtypeIn inputDtype locals
  | .binOp _ left right => sameDtype (left.dtypeIn inputDtype locals) (right.dtypeIn inputDtype locals)
  | .compare _ left right =>
    (sameDtype (left.dtypeIn inputDtype locals) (right.dtypeIn inputDtype locals)).map fun _ => .i64
  | .ifExpr test yes no =>
    (test.dtypeIn inputDtype locals).bind fun _ =>
      sameDtype (yes.dtypeIn inputDtype locals) (no.dtypeIn inputDtype locals)
  | .mathCall _ arg => if arg.dtypeIn inputDtype locals = some .f64 then some .f64 else none
  | .castToI64 value => if value.dtypeIn inputDtype locals = some .f64 then some .i64 else none
  | .castToF64 value => if value.dtypeIn inputDtype locals = some .i64 then some .f64 else none

mutual

def Stmt.wellTyped (inputDtype outputDtype : Dtype) (locals : String → Option Dtype) : Stmt F → Bool
  | .assign name dtype value =>
    locals name = some dtype && value.dtypeIn inputDtype locals = some dtype
  | .ret value => value.dtypeIn inputDtype locals = some outputDtype
  | .forRange var start stop body =>
    locals var = some .i64 && start.dtypeIn inputDtype locals = some .i64 &&
      stop.dtypeIn inputDtype locals = some .i64 && bodyWellTyped inputDtype outputDtype locals body
  | .whileDo cond body =>
    (cond.dtypeIn inputDtype locals).isSome && bodyWellTyped inputDtype outputDtype locals body
  | .ifElse test thenBody elseBody =>
    (test.dtypeIn inputDtype locals).isSome && bodyWellTyped inputDtype outputDtype locals thenBody &&
      bodyWellTyped inputDtype outputDtype locals elseBody
  | .brk | .cont => true

def bodyWellTyped (inputDtype outputDtype : Dtype) (locals : String → Option Dtype) :
    List (Stmt F) → Bool
  | [] => true
  | stmt :: rest =>
    stmt.wellTyped inputDtype outputDtype locals && bodyWellTyped inputDtype outputDtype locals rest

end

/-- The kernel type-checks when its locals have the dtypes. -/
def Kernel.wellTyped (locals : String → Option Dtype) (k : Kernel F) : Bool :=
  bodyWellTyped k.inputDtype k.outputDtype locals k.body

/-! ## Expressions -/

section Expressions
variable {w : Walker} {inputDtype : Dtype} {D : String → Option Dtype}

theorem sameDtype_self (d : Dtype) : sameDtype (some d) (some d) = some d := by
  simp [sameDtype]

theorem liftTo_dtypeIn {ir : Expr F} {d j : Dtype} (h : ir.dtypeIn inputDtype D = some d) :
    (liftTo ir d j).dtypeIn inputDtype D = some j := by
  cases d <;> cases j <;> simp [liftTo, castTo, Expr.dtypeIn, h]

/-- The dtype that the walker gives an expression is the one of its IR. -/
theorem Accepts.dtypeIn {e : PyExpr F} {ir : Expr F} {d : Dtype} (h : Accepts w e ir d)
    (hinput : w.inputDtype = inputDtype)
    (hlocals : ∀ {name d}, w.locals.lookup name = some d → D name = some d) :
    ir.dtypeIn inputDtype D = some d := by
  induction h with
  | param => exact congrArg some hinput.symm
  | localVar _ hl => exact hlocals hl
  | bool | int | float => rfl
  | unaryOp _ _ ih => exact ih
  | binOp _ _ _ _ ihl ihr =>
    simp only [Expr.dtypeIn, liftTo_dtypeIn ihl, liftTo_dtypeIn ihr, sameDtype_self]
  | compare _ _ _ ihl ihr =>
    simp only [Expr.dtypeIn, liftTo_dtypeIn ihl, liftTo_dtypeIn ihr, sameDtype_self, Option.map_some]
  | ifExp _ _ _ iht ihy ihn =>
    simp only [Expr.dtypeIn, iht, liftTo_dtypeIn ihy, liftTo_dtypeIn ihn, sameDtype_self,
      Option.bind_some]
  | math _ _ ih => simp [Expr.dtypeIn, liftTo_dtypeIn ih]
  | toInt _ ih | toFloat _ ih => exact liftTo_dtypeIn ih

end Expressions

/-! ## Statements -/

section Statements
variable {cx : LowerCx} {D : String → Option Dtype} {out : Dtype}

/-- The dtypes hold the locals of the code generator. -/
def Declares (D : String → Option Dtype) (Γ : Locals) : Prop := ∀ ⦃name d⦄, Γ.dtype name = some d → D name = some d

theorem Declares.of_emits {s s' : LowerState} {c : List (Item F)} (h : Declares D s'.locals)
    (he : Emits s c s') : Declares D s.locals := by
  intro name d hd
  rw [Locals.dtype, Option.map_eq_some_iff] at hd
  obtain ⟨p, hp, rfl⟩ := hd
  exact h (Locals.dtype_eq_of_lookup (he.locals hp))

theorem Accepts.dtypeIn_of_inStep {w : Walker} {s : LowerState} {e : PyExpr F} {ir : Expr F} {d : Dtype}
    (h : Accepts w e ir d) (hs : InStep cx w s) (hD : Declares D s.locals) :
    ir.dtypeIn cx.inputDtype D = some d :=
  h.dtypeIn hs.input fun hl => hD (hs.locals _ ▸ hl)

theorem AcceptsRange.dtypeIn {w : Walker} {s : LowerState} {iter : PyExpr F} {start stop : Expr F}
    (h : AcceptsRange w iter start stop) (hs : InStep cx w s) (hD : Declares D s.locals) :
    start.dtypeIn cx.inputDtype D = some .i64 ∧ stop.dtypeIn cx.inputDtype D = some .i64 := by
  cases h with
  | stop hb => exact ⟨rfl, liftTo_dtypeIn (hb.dtypeIn_of_inStep hs hD)⟩
  | startStop ha hb =>
    exact ⟨liftTo_dtypeIn (ha.dtypeIn_of_inStep hs hD), liftTo_dtypeIn (hb.dtypeIn_of_inStep hs hD)⟩

mutual

theorem AcceptsStmt.wellTyped : ∀ {w w' : Walker} {stmt : PyStmt F} {ir : Stmt F} {term : Bool}
    {loops : List LoopFrame} {s s' : LowerState} {c : List (Item F)},
    AcceptsStmt w stmt ir term w' → InStep cx w s → lowerStmt cx loops ir s = .ok (c, s') →
    Declares D s'.locals → (∀ d, w'.outputDtype = some d → d = out) →
    ir.wellTyped cx.inputDtype out D = true
  | _, _, _, _, _, _, _, _, _, .assign hvalue, hs, h, hD, _ => by
    obtain ⟨v, var, -, ha, -, -⟩ := lowerStmt_assign h
    have hty := hvalue.dtypeIn_of_inStep hs (hD.of_emits (emits_assignVar (F := F) ha).1)
    have hname := hD (Locals.dtype_eq_of_lookup (emits_assignVar (F := F) ha).2)
    simp [Stmt.wellTyped, hty, hname]
  | _, _, _, _, _, _, _, _, _, .augAssign hname hop hleft hvalue, hs, h, hD, _ => by
    obtain ⟨v, var, -, ha, -, -⟩ := lowerStmt_assign h
    have hΓ := hD.of_emits (emits_assignVar (F := F) ha).1
    have hl := hleft.dtypeIn_of_inStep hs hΓ
    have hr := hvalue.dtypeIn_of_inStep hs hΓ
    have hname := hD (Locals.dtype_eq_of_lookup (emits_assignVar (F := F) ha).2)
    simp [Stmt.wellTyped, Expr.dtypeIn, liftTo_dtypeIn hl, liftTo_dtypeIn hr, sameDtype_self, hname]
  | _, _, _, _, _, _, _, _, _, .ret hvalue hret, hs, h, hD, hout => by
    obtain ⟨v, -, -, rfl, -⟩ := lowerStmt_ret h
    obtain ⟨rfl, -⟩ := Walker.recordReturn_eq_ok hret
    have hty := hvalue.dtypeIn_of_inStep hs hD
    simp [Stmt.wellTyped, hty, hout _ rfl]
  | _, _, _, _, _, _, _, _, _, .ifStmt htest hthen helse, hs, h, hD, hout => by
    obtain ⟨cond, thenCode, s₁, elseCode, s₂, -, hthenC, helseC, rfl, -⟩ := lowerStmt_ifElse h
    have hs₀ := (hs.createBlocks 3).setTerminated false
    have hs₁ := (hthen.inStep hs₀ rfl hthenC).setTerminated false
    have hD₂ : Declares D s₂.locals := hD
    have hthenEmits := lowerBody_emits _ hthenC
    have helseEmits := (emits_setTerminated (F := F) s₁ false).trans (lowerBody_emits _ helseC)
    have hD₁ : Declares D s₁.locals := hD₂.of_emits helseEmits
    have hD₀ : Declares D _ := hD₁.of_emits hthenEmits
    have hty := htest.dtypeIn_of_inStep hs hD₀
    have h₁ := hthen.wellTyped hs₀ rfl hthenC hD₁ fun d hd => hout d (helse.outputStays d hd)
    have h₂ := helse.wellTyped hs₁ rfl helseC hD hout
    simp [Stmt.wellTyped, hty, h₁, h₂]
  | _, _, _, _, _, _, _, _, _, .forStmt hrange hbody, hs, h, hD, hout => by
    obtain ⟨startV, stopV, code, s₃, hstart, hstop, hdef, hbodyC, rfl⟩ := lowerStmt_forRange_counter h
    obtain ⟨-, hvar⟩ := (hs.counter_iff _ _ hrange hstart).mp hdef
    have hs₁ := hs.forBody startV stopV hvar
    have hD₂ : Declares D s₃.locals := hD
    have hD₁ := hD₂.of_emits (lowerBody_emits _ hbodyC)
    have hD₀ := hD₁.of_emits (emits_forBodyState (F := F) _ _ startV stopV).1
    obtain ⟨hty, hty'⟩ := hrange.dtypeIn hs hD₀
    have hcounter := hD₁ ((hs₁.locals _).symm.trans ((Walker.bind_lookup ..).trans (if_pos rfl)))
    have hinner := hbody.wellTyped hs₁ rfl hbodyC hD hout
    simp [Stmt.wellTyped, hcounter, hty, hty', hinner]
  | _, _, _, _, _, _, _, _, _, .whileStmt htest hbody, hs, h, hD, hout => by
    obtain ⟨condV, code, s₃, -, hbodyC, rfl, -⟩ := lowerStmt_whileDo h
    have hs₀ := (hs.createBlocks 3).setTerminated false
    have hD₂ : Declares D s₃.locals := hD
    have hD₀ : Declares D _ := hD₂.of_emits (lowerBody_emits _ hbodyC)
    have hty := htest.dtypeIn_of_inStep hs hD₀
    have hinner := hbody.wellTyped hs₀ rfl hbodyC hD hout
    simp [Stmt.wellTyped, hty, hinner]
  | _, _, _, _, _, _, _, _, _, .brk, _, _, _, _ | _, _, _, _, _, _, _, _, _, .cont, _, _, _, _ => rfl

theorem AcceptsBody.wellTyped : ∀ {w w' : Walker} {first : Bool} {body : List (PyStmt F)}
    {irs : List (Stmt F)} {term : Bool} {loops : List LoopFrame} {s s' : LowerState}
    {c : List (Item F)}, AcceptsBody w first body irs term w' → InStep cx w s →
    s.terminated = false → lowerBody cx loops irs s = .ok (c, s') → Declares D s'.locals →
    (∀ d, w'.outputDtype = some d → d = out) → bodyWellTyped cx.inputDtype out D irs = true
  | _, _, _, _, _, _, _, _, _, _, .nil, _, _, _, _, _ => rfl
  | _, _, _, _, _, _, _, _, _, _, .docstring _ hrest, hs, hrun, h, hD, hout =>
    hrest.wellTyped hs hrun h hD hout
  | _, _, _, _, _, _, _, _, _, _, .last hstmt, hs, hrun, h, hD, hout => by
    obtain ⟨code, s₁, code', hcode, hnil, -⟩ := lowerBody_cons hrun h
    cases hnil
    simp [bodyWellTyped, hstmt.wellTyped hs hcode hD hout]
  | _, _, _, _, _, _, _, _, _, _, .cons hstmt hrest, hs, hrun, h, hD, hout => by
    obtain ⟨code, s₁, code', hcode, hrestC, -⟩ := lowerBody_cons hrun h
    have hrun₁ : s₁.terminated = false :=
      (lowerStmt_terminated hrun hcode).trans (hstmt.not_terminates rfl)
    have hD₁ : Declares D s₁.locals := hD.of_emits (lowerBody_emits _ hrestC)
    have h₁ := hstmt.wellTyped hs hcode hD₁ fun d hd => hout d (hrest.outputStays d hd)
    have h₂ := hrest.wellTyped (hstmt.inStep hs hcode) hrun₁ hrestC hD hout
    simp [bodyWellTyped, h₁, h₂]

end

end Statements

/-! ## Kernels -/

/-- **The emitted IR is well typed**: a kernel of the walker that the scalar code generator
lowers type-checks with one dtype for each local. -/
theorem emitted_wellTyped {d : Dtype} {node : FnNode F} {k : Kernel F}
    (hwalk : walkFunction d node = some k) {code : List (Item F)} {s : LowerState}
    (hlower : lowerBody (scalarCx k) [] k.body (scalarStart k) = .ok (code, s)) :
    ∃ locals : String → Option Dtype, k.wellTyped locals = true := by
  obtain ⟨param, w', -, hbody, rfl, hout⟩ := walkFunction_accepts hwalk
  refine ⟨s.locals.dtype, hbody.wellTyped (inStep_scalarStart k param) rfl hlower (fun _ _ h => h) ?_⟩
  intro d hd
  rw [hout, hd, Option.getD_some]

/-- `total = 0; y = x / 2.0`, then `for i in range(3): total += i` and
`return total if y > 1.0 else 0`. -/
def sumOfThree : FnNode ℕ :=
  .functionDef ["x"]
    [.assign [.name "total"] (.constant (.int 0)),
      .assign [.name "y"] (.binOp (.name "x") .div (.constant (.float 2))),
      .forStmt (.name "i") (.call (.name "range") [.constant (.int 3)] [])
        [.augAssign (.name "total") .add (.name "i")] [],
      .ret (some (.ifExp (.compare (.name "y") [.gt] [.constant (.float 1)]) (.name "total")
        (.constant (.int 0))))]

def sumOfThreeKernel : Kernel ℕ :=
  ⟨.i64, .i64,
    [.assign "total" .i64 (.constI64 0),
      .assign "y" .f64 (.binOp .div (.castToF64 .param) (.constF64 2)),
      .forRange "i" (.constI64 0) (.constI64 3)
        [.assign "total" .i64 (.binOp .add (.localVar "total") (.localVar "i"))],
      .ret (.ifExpr (.compare .gt (.localVar "y") (.constF64 1)) (.localVar "total")
        (.constI64 0))]⟩

theorem sumOfThree_wellTyped :
    ∃ locals : String → Option Dtype, sumOfThreeKernel.wellTyped locals = true := by
  have hwalk : walkFunction .i64 sumOfThree = some sumOfThreeKernel := rfl
  obtain ⟨⟨code, s⟩, hlower⟩ : ∃ r, lowerBody (scalarCx sumOfThreeKernel) [] sumOfThreeKernel.body
      (scalarStart sumOfThreeKernel) = .ok r := ⟨_, rfl⟩
  exact emitted_wellTyped hwalk hlower

end Gilmap
