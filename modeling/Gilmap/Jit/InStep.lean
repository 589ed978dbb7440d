import Gilmap.Jit.ExprTypes
import Gilmap.Python.TryCompile
import Gilmap.Python.WalkerSpec

/-! # The walker and the code generator in step

Both passes keep a table of the locals: the walker overwrites an entry, the code generator
refuses to. As long as it does not refuse, the tables agree at every statement that both
reach, and an expression has the Cranelift type of its dtype unless its value is the flag of
a comparison.
-/
namespace Gilmap
open Library
variable {F : Type}

/-! ## Walking is a function of the statement -/

theorem AcceptsStmt.not_docstring {w w' : Walker} {stmt : PyStmt F} {ir : Stmt F} {term : Bool}
    (h : AcceptsStmt w stmt ir term w') : stmt.isDocstring = false := by
  cases h <;> rfl

theorem AcceptsStmt.not_terminates {w w' : Walker} {stmt : PyStmt F} {ir : Stmt F} {term : Bool}
    (h : AcceptsStmt w stmt ir term w') (hterm : term = false) : ir.terminates = false := by
  cases h <;> first | rfl | cases hterm

theorem AcceptsRange.rangeBounds_eq {w : Walker} {iter : PyExpr F} {start stop : Expr F}
    (h : AcceptsRange w iter start stop) : w.rangeBounds iter = .ok (start, stop) := by
  cases h with
  | @stop _ _ bt hb => cases bt <;> simp [Walker.rangeBounds, hb.expr_eq, bind, Except.bind, liftTo]
  | @startStop _ _ _ _ at_ bt ha hb =>
    cases at_ <;> cases bt <;>
      simp [Walker.rangeBounds, ha.expr_eq, hb.expr_eq, bind, Except.bind, liftTo]

mutual

theorem AcceptsStmt.stmt_eq : ∀ {w w' : Walker} {stmt : PyStmt F} {ir : Stmt F} {term : Bool},
    AcceptsStmt w stmt ir term w' → w.stmt stmt = .ok ((ir, term), w')
  | _, _, _, _, _, .assign hvalue => by
    simp [Walker.stmt, hvalue.expr_eq, bind, Except.bind]
  | _, _, _, _, _, .augAssign hname hop hleft hvalue => by
    have hread := hleft.expr_eq
    simp only [Walker.expr] at hread
    simp [Walker.stmt, Walker.augAssign, hname, hop, hread, hvalue.expr_eq, promote_eq, bind,
      Except.bind]
  | _, _, _, _, _, .ret hvalue hret => by
    simp [Walker.stmt, hvalue.expr_eq, hret, bind, Except.bind]
  | _, _, _, _, _, .ifStmt htest hthen helse => by
    simp [Walker.stmt, htest.expr_eq, hthen.stmts_eq, helse.stmts_eq, bind, Except.bind]
  | _, _, _, _, _, .forStmt hrange hbody => by
    simp [Walker.stmt, hrange.rangeBounds_eq, hbody.stmts_eq, bind, Except.bind]
  | _, _, _, _, _, .whileStmt htest hbody => by
    simp [Walker.stmt, htest.expr_eq, hbody.stmts_eq, bind, Except.bind]
  | _, _, _, _, _, .brk | _, _, _, _, _, .cont => rfl

theorem AcceptsBody.stmts_eq : ∀ {w w' : Walker} {first : Bool} {body : List (PyStmt F)}
    {irs : List (Stmt F)} {term : Bool}, AcceptsBody w first body irs term w' →
    w.stmts first body = .ok ((irs, term), w')
  | _, _, _, _, _, _, .nil => rfl
  | _, _, _, _, _, _, .docstring hdoc hrest => by
    simp [Walker.stmts, hdoc, hrest.stmts_eq]
  | _, _, _, _, _, _, .last hstmt => by
    simp [Walker.stmts, hstmt.not_docstring, hstmt.stmt_eq, bind, Except.bind]
  | _, _, _, _, _, _, .cons hstmt hrest => by
    simp [Walker.stmts, hstmt.not_docstring, hstmt.stmt_eq, hrest.stmts_eq, bind, Except.bind]

end

/-! ## Types -/

/-- The first operand of the code, all the way down, is a comparison. -/
def Walker.leadsToCompare (w : Walker) : PyExpr F → Bool
  | .compare _ _ _ => true
  | .unaryOp _ operand => w.leadsToCompare operand
  | .binOp left _ _ => w.leadsToCompare left
  | .ifExp _ body _ => w.leadsToCompare body
  | .call (.name "int") [arg] [] => w.tag arg = some .i64 && w.leadsToCompare arg
  | _ => false

/-- The type of the code for an expression of dtype `d`. -/
def Walker.codeTy (w : Walker) (e : PyExpr F) (d : Dtype) : ClTy :=
  if d = .i64 ∧ w.leadsToCompare e then .i8 else clType d

section Types
variable {w : Walker} {cx : LowerCx} {Γ : Locals} {varTys valTys : ℕ → ClTy}

/-- The tables of the two passes and the types of the variables go together. -/
structure TablesAgree (cx : LowerCx) (w : Walker) (Γ : Locals) (varTys valTys : ℕ → ClTy) : Prop where
  locals : ∀ name, w.locals.lookup name = Γ.dtype name
  input : w.inputDtype = cx.inputDtype
  param : valTys cx.param = clType cx.inputDtype
  typed : ∀ {name v d}, Γ.lookup name = some (v, d) → varTys v = clType d

theorem clType_ne_i8 (d : Dtype) : clType d ≠ .i8 := by
  cases d <;> simp [clType]

/-- An operand, lifted to the dtype at which it is lowered. -/
theorem lifted_ty {e : PyExpr F} {ir : Expr F} {d j : Dtype} {c : ClExpr F}
    (ih : ∀ {c : ClExpr F}, lowerExpr cx Γ ir d = .ok c → c.ty varTys valTys = w.codeTy e d)
    (hc : lowerExpr cx Γ (liftTo ir d j) j = .ok c) :
    c.ty varTys valTys = if d = j then w.codeTy e d else clType j := by
  by_cases hj : d = j
  · subst hj
    rw [liftTo_self] at hc
    rw [ih hc, if_pos rfl]
  · rw [if_neg hj]
    cases d <;> cases j <;> first | exact absurd rfl hj | skip
    all_goals
      simp only [liftTo, reduceCtorEq, if_false, castTo, lowerExpr, Except.bind_eq_ok] at hc
      obtain ⟨v, -, hv⟩ := hc
      cases hv
      rfl

theorem lowerBinOp_left_ty {op : BinOp} {l r c : ClExpr F} {d : Dtype}
    (hc : lowerBinOp op l r d = .ok c) :
    c.ty varTys valTys = l.ty varTys valTys ∨ d = .f64 ∧ c.ty varTys valTys = .f64 := by
  cases op <;> cases d <;> cases hc <;> first | exact .inl rfl | exact .inr ⟨rfl, rfl⟩

/-- Scalar code has no vector type. -/
theorem lowerExpr_scalar (hT : TablesAgree cx w Γ varTys valTys) {e : Expr F} {d : Dtype}
    {c : ClExpr F} (hc : lowerExpr cx Γ e d = .ok c) : c.ty varTys valTys ∈ [ClTy.i8, .i64, .f64] := by
  have hcl : ∀ d, clType d ∈ [ClTy.i8, .i64, .f64] := by
    intro d
    cases d <;> simp [clType]
  induction e generalizing d c with
  | param =>
    cases hc
    rw [lowerCoerce_ty (by exact hT.param)]
    exact hcl d
  | localVar name =>
    simp only [lowerExpr] at hc
    cases hl : Γ.lookup name with
    | none => simp [hl] at hc
    | some p =>
      obtain ⟨v, d'⟩ := p
      simp only [hl] at hc
      cases hc
      rw [lowerCoerce_ty (by exact hT.typed hl)]
      exact hcl d
  | constI64 | constF64 =>
    cases hc
    rw [lowerCoerce_ty (by rfl)]
    exact hcl d
  | constBool =>
    cases hc
    simp [ClExpr.ty]
  | unary op e ih =>
    simp only [lowerExpr, Except.bind_eq_ok] at hc
    obtain ⟨v, hv, hc⟩ := hc
    cases hc
    rw [show (lowerUnary op v d).ty varTys valTys = v.ty varTys valTys by
      cases op <;> cases d <;> rfl]
    exact ih hv
  | binOp op l r ihl ihr =>
    simp only [lowerExpr, Except.bind_eq_ok] at hc
    obtain ⟨cl, hcl, cr, -, hc⟩ := hc
    rcases lowerBinOp_left_ty hc with hty | ⟨-, hty⟩
    · exact hty ▸ ihl hcl
    · simp [hty]
  | compare op l r ihl ihr =>
    simp only [lowerExpr, Except.bind_eq_ok] at hc
    obtain ⟨cl, hcl, cr, -, hc⟩ := hc
    cases hc
    have hl := ihl hcl
    simp only [lowerCmpOp]
    split <;> simp only [ClExpr.ty] <;> split <;> simp_all
  | ifExpr c x y _ ihx _ =>
    simp only [lowerExpr, Except.bind_eq_ok] at hc
    obtain ⟨cc, -, cx', hcx, cy, -, he⟩ := hc
    cases he
    have hx := ihx hcx
    exact hx
  | mathCall fn e ih =>
    simp only [lowerExpr] at hc
    split at hc
    · simp only [Except.bind_eq_ok] at hc
      obtain ⟨v, -, he⟩ := hc
      cases he
      simp [ClExpr.ty]
    · cases hc
  | castToI64 e ih | castToF64 e ih =>
    simp only [lowerExpr, Except.bind_eq_ok] at hc
    obtain ⟨v, -, he⟩ := hc
    cases he
    simp [ClExpr.ty]

theorem lowerCmpOp_ty {op : CmpOp} {l r : ClExpr F} {d : Dtype}
    (hl : l.ty varTys valTys ∈ [ClTy.i8, .i64, .f64]) :
    (lowerCmpOp op l r d).ty varTys valTys = .i8 := by
  simp only [List.mem_cons, List.not_mem_nil, or_false] at hl
  cases d <;> rcases hl with hl | hl | hl <;> simp [lowerCmpOp, ClExpr.ty, hl]

theorem Walker.codeTy_f64 (w : Walker) (e : PyExpr F) : w.codeTy e .f64 = .f64 := by
  simp [Walker.codeTy, clType]

/-- The code of an accepted expression has the type of the expression's dtype, or is a flag. -/
theorem Accepts.code_ty {e : PyExpr F} {ir : Expr F} {d : Dtype} (h : Accepts w e ir d)
    (hT : TablesAgree cx w Γ varTys valTys) {c : ClExpr F} (hc : lowerExpr cx Γ ir d = .ok c) :
    c.ty varTys valTys = w.codeTy e d := by
  induction h generalizing c with
  | param =>
    rw [hT.input] at hc
    cases hc
    rw [lowerCoerce_ty (by exact hT.param)]
    simp [Walker.codeTy, Walker.leadsToCompare, hT.input]
  | @localVar id d hne hl =>
    rw [hT.locals, Locals.dtype, Option.map_eq_some_iff] at hl
    obtain ⟨⟨v, d'⟩, hv, rfl⟩ := hl
    simp only [lowerExpr, hv] at hc
    cases hc
    rw [lowerCoerce_ty (by exact hT.typed hv)]
    simp [Walker.codeTy, Walker.leadsToCompare]
  | bool b | int n | float x =>
    cases hc
    rfl
  | @unaryOp op irOp e ir d hop _ ih =>
    simp only [lowerExpr, Except.bind_eq_ok] at hc
    obtain ⟨v, hv, hc⟩ := hc
    cases hc
    rw [show (lowerUnary irOp v d).ty varTys valTys = v.ty varTys valTys by
      cases irOp <;> cases d <;> rfl]
    exact ih hv
  | @binOp op irOp left right l r lt rt hop hleft _ _ ihl _ =>
    simp only [lowerExpr, Except.bind_eq_ok] at hc
    obtain ⟨cl, hcl, cr, -, hc⟩ := hc
    have hl := lifted_ty ihl hcl
    rcases Dtype.join_cases lt rt with hj | ⟨rfl, rfl⟩
    · rw [hj] at hc hl ⊢
      have hleft : cl.ty varTys valTys = .f64 := by
        rw [hl]
        split
        · next hlt =>
          rw [hlt]
          exact w.codeTy_f64 left
        · rfl
      rw [Walker.codeTy_f64]
      rcases lowerBinOp_left_ty hc with hty | ⟨-, hty⟩
      · rw [hty, hleft]
      · exact hty
    · have hl : cl.ty varTys valTys = w.codeTy left .i64 := hl
      rcases lowerBinOp_left_ty hc with hty | ⟨hd, -⟩
      · rw [hty, hl]
        rfl
      · cases hd
  | compare =>
    simp only [lowerExpr, Except.bind_eq_ok] at hc
    obtain ⟨cl, hcl, cr, -, hc⟩ := hc
    cases hc
    rw [lowerCmpOp_ty (lowerExpr_scalar hT hcl)]
    rfl
  | @ifExp test body orelse t yes no tt yt nt _ _ _ _ ihy _ =>
    simp only [lowerExpr, Except.bind_eq_ok] at hc
    obtain ⟨cc, -, cy, hcy, cn, -, hc⟩ := hc
    cases hc
    have hy := lifted_ty ihy hcy
    simp only [ClExpr.ty]
    rw [hy]
    rcases Dtype.join_cases yt nt with hj | ⟨rfl, rfl⟩
    · rw [hj]
      split
      · next hyt => rw [hyt, Walker.codeTy_f64, Walker.codeTy_f64]
      · rw [Walker.codeTy_f64]
        rfl
    · rfl
  | math =>
    simp only [lowerExpr, if_true, Except.bind_eq_ok] at hc
    obtain ⟨v, -, hc⟩ := hc
    cases hc
    rw [Walker.codeTy_f64]
    rfl
  | @toInt arg a at_ ha ih =>
    rw [lifted_ty ih hc]
    cases at_ with
    | i64 => simp [Walker.codeTy, Walker.leadsToCompare, ha.tag_eq]
    | f64 => simp [Walker.codeTy, Walker.leadsToCompare, ha.tag_eq]
  | @toFloat arg a at_ ha ih =>
    rw [lifted_ty ih hc, Walker.codeTy_f64]
    split
    · next hat => rw [hat, Walker.codeTy_f64]
    · rfl

end Types

/-! ## Statements -/

/-- The walker and the code generator before the same statement. -/
structure InStep (cx : LowerCx) (w : Walker) (s : LowerState) : Prop where
  locals : ∀ name, w.locals.lookup name = s.locals.dtype name
  input : w.inputDtype = cx.inputDtype
  ok : LocalsOk s
  param : s.valTys[cx.param]? = some (clType cx.inputDtype)
  result : s.varTys[cx.resultVar]? = some (clType cx.outputDtype)

section Statements
variable {cx : LowerCx} {w w' : Walker} {s s' : LowerState} {c : List (Item F)}

theorem getD_of_getElem? {l : List ClTy} {i : ℕ} {t : ClTy} (h : l[i]? = some t) :
    l.getD i .i64 = t := by
  simp [List.getD_eq_getElem?_getD, h]

theorem getElem?_extend {l l' : List ClTy} {i : ℕ} {t : ClTy} (h : l <+: l') (hi : l[i]? = some t) :
    l'[i]? = some t := by
  obtain ⟨r, rfl⟩ := h
  obtain ⟨hlt, -⟩ := List.getElem?_eq_some_iff.mp hi
  rw [List.getElem?_append_left hlt, hi]

/-- The tables still describe the locals when the code generator has gone on. -/
theorem InStep.tables (h : InStep cx w s) (he : Emits (F := F) s c s') :
    TablesAgree cx w s.locals s'.varTy s'.valTy where
  locals := h.locals
  input := h.input
  param := getD_of_getElem? (getElem?_extend he.vals h.param)
  typed hl := (he.localsOk h.ok).typed (he.locals hl)

theorem InStep.grow (h : InStep cx w s) (he : Emits (F := F) s c s')
    (hlocals : ∀ name, w'.locals.lookup name = s'.locals.dtype name)
    (hinput : w'.inputDtype = w.inputDtype) : InStep cx w' s' where
  locals := hlocals
  input := hinput.trans h.input
  ok := he.localsOk h.ok
  param := getElem?_extend he.vals h.param
  result := getElem?_extend he.vars h.result

theorem InStep.setTerminated (h : InStep cx w s) (b : Bool) : InStep cx w (s.setTerminated b) :=
  h.grow (emits_setTerminated (F := Unit) s b) h.locals rfl

theorem InStep.createBlocks (h : InStep cx w s) (n : ℕ) : InStep cx w (s.createBlocks n) :=
  h.grow (emits_createBlocks (F := Unit) s n) h.locals rfl

theorem Walker.recordReturn_eq_ok {d : Dtype} (h : w.recordReturn d = .ok w') :
    w' = { w with outputDtype := some d } ∧ (w.outputDtype = none ∨ w.outputDtype = some d) := by
  unfold Walker.recordReturn at h
  split at h
  · next hnone =>
    cases h
    exact ⟨rfl, .inl hnone⟩
  · next out hout =>
    split at h
    · cases h
    · next hd =>
      cases h
      obtain rfl : out = d := by simpa using hd
      exact ⟨by rw [← hout], .inr hout⟩

theorem Locals.dtype_eq_of_lookup {Γ : Locals} {name : String} {p : ℕ × Dtype}
    (h : Γ.lookup name = some p) : Γ.dtype name = some p.2 := by
  simp [Locals.dtype, h]

theorem dtype_declareVar (s : LowerState) (name n : String) (d : Dtype) :
    (s.declareVar name d).2.locals.dtype n = if n = name then some d else s.locals.dtype n := by
  by_cases hn : n = name
  · simp [LowerState.declareVar, Locals.dtype, hn]
  · simp [LowerState.declareVar, Locals.dtype, hn, List.lookup_cons, beq_false_of_ne hn]

theorem assignVar_dtype {name : String} {d : Dtype} {v : ℕ} (h : assignVar s name d = .ok (v, s'))
    (n : String) : s'.locals.dtype n = if n = name then some d else s.locals.dtype n := by
  unfold assignVar at h
  split at h
  · next existing dtype hl =>
    split at h
    · next hd =>
      cases h
      split
      · next hn => rw [hn, Locals.dtype_eq_of_lookup hl, hd]
      · rfl
    · cases h
  · cases h
    exact dtype_declareVar s name n d

theorem Walker.bind_lookup (w : Walker) (name n : String) (d : Dtype) :
    (w.bind name d).locals.lookup n = if n = name then some d else w.locals.lookup n := by
  by_cases hn : n = name
  · simp [Walker.bind, hn]
  · simp [Walker.bind, hn, List.lookup_cons, beq_false_of_ne hn]

/-- Binding a name keeps in step with declaring its variable. -/
theorem InStep.bind (h : InStep cx w s) {name : String} {d : Dtype} (he : Emits (F := F) s c s')
    (hdtype : ∀ n, s'.locals.dtype n = if n = name then some d else s.locals.dtype n) :
    InStep cx (w.bind name d) s' := by
  refine h.grow he (fun n => ?_) rfl
  rw [Walker.bind_lookup, hdtype, h.locals]

/-- The first bound of a `range` is the flag of a comparison. -/
def Walker.startsAtFlag (w : Walker) : PyExpr F → Bool
  | .call (.name "range") [start, _] [] => w.tag start = some .i64 && w.leadsToCompare start
  | _ => false

theorem AcceptsRange.start_ty {iter : PyExpr F} {start stop : Expr F} {startV : ClExpr F}
    (h : AcceptsRange w iter start stop) (hs : InStep cx w s)
    (hstart : lowerExpr cx s.locals start .i64 = .ok startV) :
    s.tyOf startV = if w.startsAtFlag iter then .i8 else .i64 := by
  cases h with
  | stop =>
    cases hstart
    rfl
  | @startStop _ _ _ _ at_ _ ha _ =>
    have hty := lifted_ty (ha.code_ty (hs.tables (.refl (F := F) s))) hstart
    simp only [Walker.startsAtFlag, ha.tag_eq]
    rw [LowerState.tyOf, hty]
    cases at_ <;> simp [Walker.codeTy, clType]

theorem counterVar_dtype (s : LowerState) (name n : String) :
    (counterVar s name).2.locals.dtype n =
      if n = name then some ((s.locals.dtype name).getD .i64) else s.locals.dtype n := by
  unfold counterVar
  split
  · next existing dtype hl =>
    split
    · next hn => rw [hn, Locals.dtype_eq_of_lookup hl, Option.getD_some]
    · rfl
  · next hl =>
    have hnone : s.locals.dtype name = none := by simp [Locals.dtype, hl]
    rw [dtype_declareVar, hnone, Option.getD_none]

theorem forBodyState_dtype (s : LowerState) (var : String) (startV stopV : ClExpr F) (n : String) :
    (forBodyState s var startV stopV).2.locals.dtype n =
      if n = var then some ((s.locals.dtype var).getD .i64) else s.locals.dtype n :=
  counterVar_dtype ((s.newValue startV).2.newValue stopV).2 var n

theorem forBodyState_start (s : LowerState) (var : String) (startV stopV : ClExpr F) :
    (forBodyState s var startV stopV).2.valTy s.valTys.length = s.tyOf startV := by
  have hvals : (forBodyState s var startV stopV).2.valTys =
      s.valTys ++ [s.tyOf startV] ++ [(s.newValue startV).2.tyOf stopV] := by
    simp only [forBodyState, counterVar]
    split <;> rfl
  simp [LowerState.valTy, hvals, List.getD_eq_getElem?_getD]

theorem defVar_isOk_iff {v : ℕ} {e : ClExpr F} :
    (∃ item, defVar s v e = .ok item) ↔ s.tyOf e = s.varTy v := by
  unfold defVar
  split <;> simp_all

/-- The counter of a `for` is defined unless the start is a flag or the variable holds floats. -/
theorem InStep.counter_iff (h : InStep cx w s) {iter : PyExpr F} {start stop : Expr F}
    {startV : ClExpr F} (var : String) (stopV : ClExpr F) (hrange : AcceptsRange w iter start stop)
    (hstart : lowerExpr cx s.locals start .i64 = .ok startV) :
    (∃ item, defVar (F := F) (forBodyState s var startV stopV).2 (forBodyState s var startV stopV).1
      (.value s.valTys.length) = .ok item) ↔
      w.startsAtFlag iter = false ∧ w.locals.lookup var ≠ some .f64 := by
  obtain ⟨he, -, -, dtype, hl⟩ := emits_forBodyState (F := F) s var startV stopV
  have hdtype := Locals.dtype_eq_of_lookup hl
  rw [forBodyState_dtype, if_pos rfl] at hdtype
  rw [defVar_isOk_iff, (he.localsOk h.ok).typed hl, h.locals]
  have hty : (forBodyState s var startV stopV).2.tyOf (.value s.valTys.length : ClExpr F) =
      if w.startsAtFlag iter then .i8 else .i64 :=
    (forBodyState_start s var startV stopV).trans (hrange.start_ty h hstart)
  rw [hty]
  cases hflag : w.startsAtFlag iter with
  | true => cases dtype <;> simp [clType]
  | false =>
    cases hd : s.locals.dtype var with
    | none =>
      rw [hd] at hdtype
      cases hdtype
      simp [clType]
    | some _ =>
      rw [hd] at hdtype
      cases hdtype
      cases dtype <;> simp [clType]

/-- The body of a `for` starts with a word in the variable. -/
theorem InStep.forBody (h : InStep cx w s) {var : String} (startV stopV : ClExpr F)
    (hvar : w.locals.lookup var ≠ some .f64) :
    InStep cx (w.bind var .i64) (forBodyState s var startV stopV).2 := by
  obtain ⟨he, -⟩ := emits_forBodyState (F := F) s var startV stopV
  apply h.bind he
  intro n
  rw [forBodyState_dtype]
  split
  · rw [h.locals] at hvar
    cases hd : s.locals.dtype var with
    | none => rfl
    | some d =>
      cases d with
      | i64 => rfl
      | f64 => exact absurd hd hvar
  · rfl

theorem lowerStmt_forRange_counter {loops : List LoopFrame} {var : String} {start stop : Expr F}
    {body : List (Stmt F)} (h : lowerStmt cx loops (.forRange var start stop body) s = .ok (c, s')) :
    ∃ startV stopV code s₃, lowerExpr cx s.locals start .i64 = .ok startV ∧
      lowerExpr cx s.locals stop .i64 = .ok stopV ∧
      (∃ item, defVar (F := F) (forBodyState s var startV stopV).2 (forBodyState s var startV stopV).1
        (.value s.valTys.length) = .ok item) ∧
      lowerBody cx (⟨s.nextBlock + 3, s.nextBlock + 2⟩ :: loops) body
        (forBodyState s var startV stopV).2 = .ok (code, s₃) ∧ s' = s₃.setTerminated false := by
  obtain ⟨startV, stopV, code, s₃, hstart, hstop, hbody, hs', -⟩ := lowerStmt_forRange h
  refine ⟨startV, stopV, code, s₃, hstart, hstop, ?_, hbody, hs'⟩
  simp only [lowerStmt, Except.bind_eq_ok] at h
  obtain ⟨startV', hstart', stopV', hstop', item, hd, -⟩ := h
  rw [hstart] at hstart'
  cases hstart'
  have heq : stopV' = stopV := Except.ok.inj (hstop'.symm.trans hstop)
  subst heq
  exact ⟨item, hd⟩

mutual

/-- A statement that is lowered keeps the two passes in step. -/
theorem AcceptsStmt.inStep : ∀ {w w' : Walker} {stmt : PyStmt F} {ir : Stmt F} {term : Bool}
    {loops : List LoopFrame} {s s' : LowerState} {c : List (Item F)},
    AcceptsStmt w stmt ir term w' → InStep cx w s → lowerStmt cx loops ir s = .ok (c, s') →
    InStep cx w' s'
  | w, _, _, _, _, loops, s, s', c, .assign _, hs, h => by
    obtain ⟨v, var, -, ha, -, -⟩ := lowerStmt_assign h
    exact hs.bind (emits_assignVar (F := F) ha).1 (assignVar_dtype ha)
  | w, _, _, _, _, loops, s, s', c, .augAssign hname _ _ _, hs, h => by
    obtain ⟨v, var, -, ha, -, -⟩ := lowerStmt_assign h
    refine hs.grow (emits_assignVar (F := F) ha).1 (fun n => ?_) rfl
    rw [assignVar_dtype ha, ← hs.locals]
    split
    · next hn => rw [hn, hname]
    · rfl
  | w, w', _, _, _, loops, s, s', c, .ret _ hret, hs, h => by
    obtain ⟨v, -, -, rfl, -⟩ := lowerStmt_ret h
    obtain ⟨rfl, -⟩ := Walker.recordReturn_eq_ok hret
    exact (hs.setTerminated true).grow (.refl (F := F) _) hs.locals rfl
  | w, w', _, _, _, loops, s, s', c, .ifStmt _ hthen helse, hs, h => by
    obtain ⟨cond, thenCode, s₁, elseCode, s₂, -, hthenC, helseC, rfl, -⟩ := lowerStmt_ifElse h
    have h₁ := hthen.inStep ((hs.createBlocks 3).setTerminated false) rfl hthenC
    have h₂ := helse.inStep (h₁.setTerminated false) rfl helseC
    exact h₂.setTerminated false
  | w, w', _, _, _, loops, s, s', c, .forStmt hrange hbody, hs, h => by
    obtain ⟨startV, stopV, code, s₃, hstart, hstop, hdef, hbodyC, rfl⟩ := lowerStmt_forRange_counter h
    obtain ⟨-, hvar⟩ := (hs.counter_iff _ _ hrange hstart).mp hdef
    exact (hbody.inStep (hs.forBody _ _ hvar) rfl hbodyC).setTerminated false
  | w, w', _, _, _, loops, s, s', c, .whileStmt _ hbody, hs, h => by
    obtain ⟨condV, code, s₃, -, hbodyC, rfl, -⟩ := lowerStmt_whileDo h
    exact (hbody.inStep ((hs.createBlocks 3).setTerminated false) rfl hbodyC).setTerminated false
  | w, _, _, _, _, loops, s, s', c, .brk, hs, h | w, _, _, _, _, loops, s, s', c, .cont, hs, h => by
    cases loops with
    | nil => simp [lowerStmt] at h
    | cons frame outer =>
      simp only [lowerStmt] at h
      cases h
      exact hs.setTerminated true

theorem AcceptsBody.inStep : ∀ {w w' : Walker} {first : Bool} {body : List (PyStmt F)}
    {irs : List (Stmt F)} {term : Bool} {loops : List LoopFrame} {s s' : LowerState}
    {c : List (Item F)}, AcceptsBody w first body irs term w' → InStep cx w s →
    s.terminated = false → lowerBody cx loops irs s = .ok (c, s') → InStep cx w' s'
  | _, _, _, _, _, _, loops, s, s', c, .nil, hs, _, h => by
    cases h
    exact hs
  | _, _, _, _, _, _, loops, s, s', c, .docstring _ hrest, hs, hrun, h => hrest.inStep hs hrun h
  | _, _, _, _, _, _, loops, s, s', c, .last hstmt, hs, hrun, h => by
    obtain ⟨code, s₁, code', hcode, hnil, -⟩ := lowerBody_cons hrun h
    cases hnil
    exact hstmt.inStep hs hcode
  | _, _, _, _, _, _, loops, s, s', c, .cons hstmt hrest, hs, hrun, h => by
    obtain ⟨code, s₁, code', hcode, hrestC, -⟩ := lowerBody_cons hrun h
    have hrun₁ : s₁.terminated = false :=
      (lowerStmt_terminated hrun hcode).trans (hstmt.not_terminates rfl)
    exact hrest.inStep (hstmt.inStep hs hcode) hrun₁ hrestC

end

end Statements

/-! ## The statements that are met -/

/-- Walking the body from `w` and lowering what comes of it from `s`, the two passes come to
the statement as `w₀` and `s₀`; everything before it is lowered. -/
inductive Meets (cx : LowerCx) : List LoopFrame → Walker → LowerState → List (PyStmt F) → Walker →
    LowerState → PyStmt F → Prop
  | here {loops : List LoopFrame} {w : Walker} {s : LowerState} {stmt : PyStmt F}
      {rest : List (PyStmt F)} : Meets cx loops w s (stmt :: rest) w s stmt
  | docstring {loops : List LoopFrame} {w w₀ : Walker} {s s₀ : LowerState} {stmt met : PyStmt F}
      {rest : List (PyStmt F)} : stmt.isDocstring = true → Meets cx loops w s rest w₀ s₀ met →
      Meets cx loops w s (stmt :: rest) w₀ s₀ met
  | next {loops : List LoopFrame} {w w₁ w₀ : Walker} {s s₁ s₀ : LowerState} {stmt met : PyStmt F}
      {rest : List (PyStmt F)} {ir : Stmt F} {c : List (Item F)} :
      w.stmt stmt = .ok ((ir, false), w₁) → lowerStmt cx loops ir s = .ok (c, s₁) →
      Meets cx loops w₁ s₁ rest w₀ s₀ met → Meets cx loops w s (stmt :: rest) w₀ s₀ met
  | thenBody {loops : List LoopFrame} {w w₀ : Walker} {s s₀ : LowerState} {test : PyExpr F}
      {body orelse rest : List (PyStmt F)} {met : PyStmt F} {ir : Expr F} {d : Dtype} {c : ClExpr F} :
      w.expr test = .ok (ir, d) → lowerExpr cx s.locals ir .i64 = .ok c →
      Meets cx loops w ((s.createBlocks 3).setTerminated false) body w₀ s₀ met →
      Meets cx loops w s (.ifStmt test body orelse :: rest) w₀ s₀ met
  | elseBody {loops : List LoopFrame} {w w₁ w₀ : Walker} {s s₁ s₀ : LowerState} {test : PyExpr F}
      {body orelse rest : List (PyStmt F)} {met : PyStmt F} {ir : Expr F} {d : Dtype} {c : ClExpr F}
      {thenIr : List (Stmt F)} {term : Bool} {code : List (Item F)} :
      w.expr test = .ok (ir, d) → lowerExpr cx s.locals ir .i64 = .ok c →
      w.stmts true body = .ok ((thenIr, term), w₁) →
      lowerBody cx loops thenIr ((s.createBlocks 3).setTerminated false) = .ok (code, s₁) →
      Meets cx loops w₁ (s₁.setTerminated false) orelse w₀ s₀ met →
      Meets cx loops w s (.ifStmt test body orelse :: rest) w₀ s₀ met
  | forBody {loops : List LoopFrame} {w w₀ : Walker} {s s₀ : LowerState} {var : String}
      {iter : PyExpr F} {body rest : List (PyStmt F)} {met : PyStmt F} {start stop : Expr F}
      {startV stopV : ClExpr F} {item : Item F} : w.rangeBounds iter = .ok (start, stop) →
      lowerExpr cx s.locals start .i64 = .ok startV → lowerExpr cx s.locals stop .i64 = .ok stopV →
      defVar (forBodyState s var startV stopV).2 (forBodyState s var startV stopV).1
        (.value s.valTys.length) = .ok item →
      Meets cx (⟨s.nextBlock + 3, s.nextBlock + 2⟩ :: loops) (w.bind var .i64)
        (forBodyState s var startV stopV).2 body w₀ s₀ met →
      Meets cx loops w s (.forStmt (.name var) iter body [] :: rest) w₀ s₀ met
  | whileBody {loops : List LoopFrame} {w w₀ : Walker} {s s₀ : LowerState} {test : PyExpr F}
      {body rest : List (PyStmt F)} {met : PyStmt F} {ir : Expr F} {d : Dtype} {c : ClExpr F} :
      w.expr test = .ok (ir, d) → lowerExpr cx s.locals ir .i64 = .ok c →
      Meets cx (⟨s.nextBlock, s.nextBlock + 2⟩ :: loops) w ((s.createBlocks 3).setTerminated false)
        body w₀ s₀ met →
      Meets cx loops w s (.whileStmt test body [] :: rest) w₀ s₀ met

/-- Once there is an output dtype, it stays. -/
def Walker.OutputStays (w w' : Walker) : Prop := ∀ d, w.outputDtype = some d → w'.outputDtype = some d

theorem Walker.OutputStays.trans {w w₁ w' : Walker} (h : w.OutputStays w₁) (h' : w₁.OutputStays w') :
    w.OutputStays w' :=
  fun d hd => h' d (h d hd)

mutual

theorem AcceptsStmt.outputStays : ∀ {w w' : Walker} {stmt : PyStmt F} {ir : Stmt F} {term : Bool},
    AcceptsStmt w stmt ir term w' → w.OutputStays w'
  | _, _, _, _, _, .assign _ | _, _, _, _, _, .augAssign _ _ _ _ | _, _, _, _, _, .brk
  | _, _, _, _, _, .cont => fun _ h => h
  | _, _, _, _, _, .ret _ hret => fun d h => by
    obtain ⟨rfl, hnone | hsome⟩ := Walker.recordReturn_eq_ok hret
    · rw [hnone] at h
      cases h
    · exact hsome.symm.trans h
  | _, _, _, _, _, .ifStmt _ hthen helse => hthen.outputStays.trans helse.outputStays
  | _, _, _, _, _, .forStmt _ hbody | _, _, _, _, _, .whileStmt _ hbody => hbody.outputStays

theorem AcceptsBody.outputStays : ∀ {w w' : Walker} {first : Bool} {body : List (PyStmt F)}
    {irs : List (Stmt F)} {term : Bool}, AcceptsBody w first body irs term w' → w.OutputStays w'
  | _, _, _, _, _, _, .nil => fun _ h => h
  | _, _, _, _, _, _, .docstring _ hrest => hrest.outputStays
  | _, _, _, _, _, _, .last hstmt => hstmt.outputStays
  | _, _, _, _, _, _, .cons hstmt hrest => hstmt.outputStays.trans hrest.outputStays

end

section Met
variable {cx : LowerCx} {loops : List LoopFrame} {w w' w₀ : Walker} {s s₀ : LowerState}
  {body : List (PyStmt F)} {irs : List (Stmt F)} {first term : Bool} {met : PyStmt F}

theorem AcceptsBody.head {stmt : PyStmt F} {rest : List (PyStmt F)}
    (h : AcceptsBody w first (stmt :: rest) irs term w') (hdoc : stmt.isDocstring = false) :
    ∃ ir t w₁, AcceptsStmt w stmt ir t w₁ ∧ w₁.OutputStays w' := by
  cases h with
  | docstring h _ =>
    rw [h] at hdoc
    cases hdoc
  | last hstmt => exact ⟨_, _, _, hstmt, fun _ h => h⟩
  | cons hstmt hrest => exact ⟨_, _, _, hstmt, hrest.outputStays⟩

/-- The walker has accepted a statement that is met, unless it is a docstring, and the two
passes are in step there. -/
theorem Meets.inStep (h : Meets cx loops w s body w₀ s₀ met)
    (hbody : AcceptsBody w first body irs term w') (hs : InStep cx w s) (hrun : s.terminated = false) :
    InStep cx w₀ s₀ ∧ s₀.terminated = false ∧
      (met.isDocstring = false → ∃ ir t w₁, AcceptsStmt w₀ met ir t w₁ ∧ w₁.OutputStays w') := by
  induction h generalizing first irs term w' with
  | here => exact ⟨hs, hrun, hbody.head⟩
  | docstring hdoc _ ih =>
    cases hbody with
    | docstring _ hrest => exact ih hrest hs hrun
    | last hstmt | cons hstmt _ =>
      rw [hstmt.not_docstring] at hdoc
      cases hdoc
  | next hwalk hlower _ ih =>
    have hstmt := Walker.acceptsStmt _ hwalk
    cases hbody with
    | docstring hdoc _ =>
      rw [hstmt.not_docstring] at hdoc
      cases hdoc
    | last hlast =>
      rw [hlast.stmt_eq] at hwalk
      cases hwalk
    | cons hcons hrest =>
      rw [hcons.stmt_eq] at hwalk
      cases hwalk
      exact ih hrest (hstmt.inStep hs hlower)
        ((lowerStmt_terminated hrun hlower).trans (hstmt.not_terminates rfl))
  | thenBody _ _ _ ih =>
    obtain ⟨_, _, _, hstmt, hstays⟩ := hbody.head rfl
    cases hstmt with
    | ifStmt _ hthen helse =>
      obtain ⟨hs₀, hrun₀, hmet⟩ := ih hthen ((hs.createBlocks 3).setTerminated false) rfl
      refine ⟨hs₀, hrun₀, fun hdoc => ?_⟩
      obtain ⟨ir, t, w₁, hacc, hout⟩ := hmet hdoc
      exact ⟨ir, t, w₁, hacc, hout.trans (helse.outputStays.trans hstays)⟩
  | elseBody _ _ hwalk hlower _ ih =>
    obtain ⟨_, _, _, hstmt, hstays⟩ := hbody.head rfl
    cases hstmt with
    | ifStmt _ hthen helse =>
      rw [hthen.stmts_eq] at hwalk
      cases hwalk
      have hs₁ := hthen.inStep ((hs.createBlocks 3).setTerminated false) rfl hlower
      obtain ⟨hs₀, hrun₀, hmet⟩ := ih helse (hs₁.setTerminated false) rfl
      refine ⟨hs₀, hrun₀, fun hdoc => ?_⟩
      obtain ⟨ir, t, w₁, hacc, hout⟩ := hmet hdoc
      exact ⟨ir, t, w₁, hacc, hout.trans hstays⟩
  | forBody hwalk hstart _ hdef _ ih =>
    obtain ⟨_, _, _, hstmt, hstays⟩ := hbody.head rfl
    cases hstmt with
    | forStmt hrange hinner =>
      rw [hrange.rangeBounds_eq] at hwalk
      cases hwalk
      obtain ⟨-, hvar⟩ := (hs.counter_iff _ _ hrange hstart).mp ⟨_, hdef⟩
      obtain ⟨hs₀, hrun₀, hmet⟩ := ih hinner (hs.forBody _ _ hvar) rfl
      refine ⟨hs₀, hrun₀, fun hdoc => ?_⟩
      obtain ⟨ir, t, w₁, hacc, hout⟩ := hmet hdoc
      exact ⟨ir, t, w₁, hacc, hout.trans hstays⟩
  | whileBody _ _ _ ih =>
    obtain ⟨_, _, _, hstmt, hstays⟩ := hbody.head rfl
    cases hstmt with
    | whileStmt _ hinner =>
      obtain ⟨hs₀, hrun₀, hmet⟩ := ih hinner ((hs.createBlocks 3).setTerminated false) rfl
      refine ⟨hs₀, hrun₀, fun hdoc => ?_⟩
      obtain ⟨ir, t, w₁, hacc, hout⟩ := hmet hdoc
      exact ⟨ir, t, w₁, hacc, hout.trans hstays⟩

end Met

/-! ## Kernels -/

/-- The statements that `try_compile` has the walker go through; a lambda returns its body. -/
def FnNode.stmts : FnNode F → List (PyStmt F)
  | .functionDef _ body => body
  | .lambda _ body => [.ret (some body)]

theorem walkFunction_accepts {d : Dtype} {node : FnNode F} {k : Kernel F}
    (h : walkFunction d node = some k) :
    ∃ param w', node.params = [param] ∧ AcceptsBody (.init param d) true node.stmts k.body true w' ∧
      k.inputDtype = d ∧ k.outputDtype = w'.outputDtype.getD d := by
  unfold walkFunction at h
  split at h
  · next param hparams =>
    cases node with
    | lambda params body =>
      simp only at h
      split at h
      · cases h
      · next value dt hvalue =>
        cases h
        exact ⟨param, { Walker.init param d with outputDtype := some dt }, hparams,
          .last (.ret (Walker.accepts hvalue) rfl), rfl, rfl⟩
    | functionDef params body =>
      simp only at h
      split at h
      · cases h
      · next bodyIr terminated w' hbody =>
        split at h
        · next hterm =>
          cases h
          subst hterm
          exact ⟨param, w', hparams, Walker.acceptsBody body hbody, rfl, rfl⟩
        · cases h
  · cases h

theorem inStep_scalarStart (k : Kernel F) (param : String) :
    InStep (scalarCx k) (.init param k.inputDtype) (scalarStart k) where
  locals _ := rfl
  input := rfl
  ok := scalarStart_ok k
  param := rfl
  result := rfl

theorem inStep_tailStart (k : Kernel F) (param : String) :
    InStep (tailCx k) (.init param k.inputDtype) (tailStart k) where
  locals _ := rfl
  input := rfl
  ok := tailStart_ok k
  param := rfl
  result := rfl

end Gilmap
