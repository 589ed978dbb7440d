import Gilmap.Jit.InStep
import Gilmap.Jit.SimdRefines
import Gilmap.Python.HostFloats

/-! # When the code generator panics

`def_var` panics on a value of another type. The walker gives a comparison the dtype `i64`,
and its code is a flag; and a `for` takes over a variable whatever it holds.
-/
namespace Gilmap
variable {F : Type}

/-- The operands of the statement are lowered, and it then defines a variable with a value of
another type. -/
def MistypedAt (cx : LowerCx) (w : Walker) (s : LowerState) : PyStmt F → Prop
  | .assign [.name name] value =>
    (∃ ir c, w.expr value = .ok (ir, .i64) ∧ lowerExpr cx s.locals ir .i64 = .ok c) ∧
      w.leadsToCompare value = true ∧ w.locals.lookup name ≠ some .f64
  | .ret (some value) =>
    (∃ ir c, w.expr value = .ok (ir, .i64) ∧ lowerExpr cx s.locals ir .i64 = .ok c) ∧
      w.leadsToCompare value = true
  | .forStmt (.name var) iter _ _ =>
    (∃ start stop startV stopV, w.rangeBounds iter = .ok (start, stop) ∧
      lowerExpr cx s.locals start .i64 = .ok startV ∧ lowerExpr cx s.locals stop .i64 = .ok stopV) ∧
      (w.startsAtFlag iter = true ∨ w.locals.lookup var = some .f64)
  | _ => False

/-! ## Only `def_var` panics -/

theorem Except.bind_eq_error {ε α β : Type} {x : Except ε α} {f : α → Except ε β} {e : ε} :
    (x >>= f) = .error e ↔ x = .error e ∨ ∃ a, x = .ok a ∧ f a = .error e := by
  cases x <;> simp [bind, Except.bind]

theorem lowerExpr_ne_panic {cx : LowerCx} {Γ : Locals} {e : Expr F} {d : Dtype} :
    lowerExpr cx Γ e d ≠ .error .panic := by
  induction e generalizing d with
  | param | constI64 | constF64 | constBool => exact fun h => nomatch h
  | localVar name =>
    intro h
    simp only [lowerExpr] at h
    split at h <;> cases h
  | unary op e ih =>
    intro h
    simp only [lowerExpr, Except.bind_eq_error] at h
    rcases h with h | ⟨v, -, h⟩
    · exact ih h
    · cases h
  | binOp op l r ihl ihr =>
    intro h
    simp only [lowerExpr, Except.bind_eq_error] at h
    rcases h with h | ⟨cl, -, h | ⟨cr, -, h⟩⟩
    · exact ihl h
    · exact ihr h
    · cases op <;> cases d <;> cases h
  | compare op l r ihl ihr =>
    intro h
    simp only [lowerExpr, Except.bind_eq_error] at h
    rcases h with h | ⟨cl, -, h | ⟨cr, -, h⟩⟩
    · exact ihl h
    · exact ihr h
    · cases h
  | ifExpr c x y ihc ihx ihy =>
    intro h
    simp only [lowerExpr, Except.bind_eq_error] at h
    rcases h with h | ⟨cc, -, h | ⟨cx', -, h | ⟨cy, -, h⟩⟩⟩
    · exact ihc h
    · exact ihx h
    · exact ihy h
    · cases h
  | mathCall fn e ih =>
    intro h
    simp only [lowerExpr] at h
    split at h
    · rcases Except.bind_eq_error.mp h with h | ⟨v, -, h⟩
      · exact ih h
      · cases h
    · cases h
  | castToI64 e ih | castToF64 e ih =>
    intro h
    simp only [lowerExpr, Except.bind_eq_error] at h
    rcases h with h | ⟨v, -, h⟩
    · exact ih h
    · cases h

theorem assignVar_ne_panic {s : LowerState} {name : String} {d : Dtype} :
    assignVar s name d ≠ .error .panic := by
  unfold assignVar
  split
  · split <;> exact fun h => nomatch h
  · exact fun h => nomatch h

theorem defVar_eq_panic {s : LowerState} {v : ℕ} {e : ClExpr F} :
    defVar s v e = .error .panic ↔ s.tyOf e ≠ s.varTy v := by
  unfold defVar
  split <;> simp_all

section Panics
variable {cx : LowerCx} {loops : List LoopFrame} {w w' w₀ : Walker} {s s' s₀ : LowerState}

/-- Code of the dtype's own type. -/
theorem Walker.codeTy_ne_iff {e : PyExpr F} {d : Dtype} :
    w.codeTy e d ≠ clType d ↔ d = .i64 ∧ w.leadsToCompare e = true := by
  unfold Walker.codeTy
  split
  · next h => exact iff_of_true (clType_ne_i8 d).symm h
  · next h => simpa using h

theorem lowerBody_cons_error {ir : Stmt F} {irs : List (Stmt F)} {e : CompileError}
    (hrun : s.terminated = false) :
    lowerBody cx loops (ir :: irs) s = .error e ↔ lowerStmt cx loops ir s = .error e ∨
      ∃ c s₁, lowerStmt cx loops ir s = .ok (c, s₁) ∧ lowerBody cx loops irs s₁ = .error e := by
  simp only [lowerBody, hrun, Bool.false_eq_true, if_false, Except.bind_eq_error, Prod.exists]
  constructor
  · rintro (h | ⟨c, s₁, hc, h | ⟨c', s₂, -, h⟩⟩)
    · exact .inl h
    · exact .inr ⟨c, s₁, hc, h⟩
    · cases h
  · rintro (h | ⟨c, s₁, hc, h⟩)
    · exact .inl h
    · exact .inr ⟨c, s₁, hc, .inl h⟩

/-- An assignment of a value of dtype `d` panics when the code has another type. -/
theorem lowerStmt_assign_panic (hs : InStep cx w s) {name : String} {d : Dtype} {value : Expr F}
    {t : ClTy} (hty : ∀ {Γ : Locals} {varTys valTys : ℕ → ClTy} {c : ClExpr F},
      TablesAgree cx w Γ varTys valTys → lowerExpr cx Γ value d = .ok c → c.ty varTys valTys = t) :
    lowerStmt cx loops (.assign name d value) s = .error .panic ↔
      (∃ c, lowerExpr cx s.locals value d = .ok c) ∧ t ≠ clType d ∧
        (w.locals.lookup name = none ∨ w.locals.lookup name = some d) := by
  simp only [lowerStmt, Except.bind_eq_error, Prod.exists]
  constructor
  · rintro (h | ⟨c, hc, h | ⟨v, s₁, ha, h | ⟨item, -, h⟩⟩⟩)
    · exact absurd h lowerExpr_ne_panic
    · exact absurd h assignVar_ne_panic
    · obtain ⟨he, hl⟩ := emits_assignVar (F := F) ha
      rw [defVar_eq_panic, LowerState.tyOf, hty (hs.tables he) hc, (he.localsOk hs.ok).typed hl] at h
      refine ⟨⟨c, hc⟩, h, ?_⟩
      rw [hs.locals]
      cases hd : s.locals.lookup name with
      | none => exact .inl (by simp [Locals.dtype, hd])
      | some p =>
        have hp := he.locals hd
        rw [hl] at hp
        cases hp
        exact .inr (Locals.dtype_eq_of_lookup hd)
    · cases h
  · rintro ⟨⟨c, hc⟩, hne, hname⟩
    obtain ⟨v, s₁, ha⟩ : ∃ v s₁, assignVar s name d = .ok (v, s₁) := by
      rw [hs.locals] at hname
      unfold assignVar
      cases hd : s.locals.lookup name with
      | none => exact ⟨_, _, rfl⟩
      | some p =>
        obtain ⟨existing, dtype⟩ := p
        rw [Locals.dtype_eq_of_lookup hd] at hname
        rcases hname with h | h
        · cases h
        · cases h
          exact ⟨existing, s, by simp⟩
    obtain ⟨he, hl⟩ := emits_assignVar (F := F) ha
    refine .inr ⟨c, hc, .inr ⟨v, s₁, ha, .inl ?_⟩⟩
    rw [defVar_eq_panic, LowerState.tyOf, hty (hs.tables he) hc, (he.localsOk hs.ok).typed hl]
    exact hne

theorem Accepts.assign_panic {stmtName : String} {value : PyExpr F} {ir : Expr F} {d : Dtype}
    (h : Accepts w value ir d) (hs : InStep cx w s) :
    lowerStmt cx loops (.assign stmtName d ir) s = .error .panic ↔
      MistypedAt cx w s (.assign [.name stmtName] value) := by
  rw [lowerStmt_assign_panic hs (fun hT hc => h.code_ty hT hc), Walker.codeTy_ne_iff]
  constructor
  · rintro ⟨⟨c, hc⟩, ⟨rfl, hflag⟩, hname⟩
    refine ⟨⟨ir, c, h.expr_eq, hc⟩, hflag, fun hf => ?_⟩
    rw [hf] at hname
    rcases hname with h | h <;> cases h
  · rintro ⟨⟨ir', c, hir, hc⟩, hflag, hname⟩
    rw [h.expr_eq] at hir
    cases hir
    refine ⟨⟨c, hc⟩, ⟨rfl, hflag⟩, ?_⟩
    cases hl : w.locals.lookup stmtName with
    | none => exact .inl rfl
    | some d =>
      cases d with
      | i64 => exact .inr rfl
      | f64 => exact absurd hl hname

/-- The code of an augmented assignment starts with a read of the name. -/
theorem augAssign_not_panic {name : String} {irOp : BinOp} {l r : Expr F} {lt rt : Dtype}
    (hl : Accepts w (.name name) l lt) (hs : InStep cx w s) :
    lowerStmt cx loops (.assign name (lt.join rt)
      (.binOp irOp (liftTo l lt (lt.join rt)) (liftTo r rt (lt.join rt)))) s ≠ .error .panic := by
  intro hpanic
  rw [lowerStmt_assign_panic (t := clType (lt.join rt)) hs] at hpanic
  · exact hpanic.2.1 rfl
  · intro Γ varTys valTys c hT hc
    simp only [lowerExpr, Except.bind_eq_ok] at hc
    obtain ⟨cl, hcl, cr, -, hc⟩ := hc
    have hty := lifted_ty (hl.code_ty hT) hcl
    have hname : w.codeTy (.name name : PyExpr F) lt = clType lt := by
      simp [Walker.codeTy, Walker.leadsToCompare]
    rcases lowerBinOp_left_ty hc with h | ⟨hd, h⟩
    · rw [h, hty, hname]
      split
      · next he => rw [← he]
      · rfl
    · rw [h, hd]
      rfl

theorem Accepts.ret_panic {value : PyExpr F} {ir : Expr F} {d : Dtype} (h : Accepts w value ir d)
    (hs : InStep cx w s) (hout : cx.outputDtype = d) :
    lowerStmt cx loops (.ret ir) s = .error .panic ↔ MistypedAt cx w s (.ret (some value)) := by
  have hresult : s.varTy cx.resultVar = clType d := hout ▸ getD_of_getElem? hs.result
  simp only [lowerStmt, Except.bind_eq_error, hout]
  constructor
  · rintro (h' | ⟨c, hc, h' | ⟨item, -, h'⟩⟩)
    · exact absurd h' lowerExpr_ne_panic
    · rw [defVar_eq_panic, LowerState.tyOf, h.code_ty (hs.tables (.refl (F := F) s)) hc, hresult,
        Walker.codeTy_ne_iff] at h'
      obtain ⟨rfl, hflag⟩ := h'
      exact ⟨⟨ir, c, h.expr_eq, hc⟩, hflag⟩
    · cases h'
  · rintro ⟨⟨ir', c, hir, hc⟩, hflag⟩
    rw [h.expr_eq] at hir
    cases hir
    refine .inr ⟨c, hc, .inl ?_⟩
    rw [defVar_eq_panic, LowerState.tyOf, h.code_ty (hs.tables (.refl (F := F) s)) hc, hresult,
      Walker.codeTy_ne_iff]
    exact ⟨rfl, hflag⟩

/-- A `for` panics at its counter, or in its body. -/
theorem AcceptsRange.for_panic {var : String} {iter : PyExpr F} {start stop : Expr F}
    {inner : List (Stmt F)} (h : AcceptsRange w iter start stop) (hs : InStep cx w s)
    (body orelse : List (PyStmt F)) :
    lowerStmt cx loops (.forRange var start stop inner) s = .error .panic ↔
      MistypedAt cx w s (.forStmt (.name var) iter body orelse) ∨
        ∃ startV stopV item, lowerExpr cx s.locals start .i64 = .ok startV ∧
          lowerExpr cx s.locals stop .i64 = .ok stopV ∧
          defVar (F := F) (forBodyState s var startV stopV).2 (forBodyState s var startV stopV).1
            (.value s.valTys.length) = .ok item ∧
          lowerBody cx (⟨s.nextBlock + 3, s.nextBlock + 2⟩ :: loops) inner
            (forBodyState s var startV stopV).2 = .error .panic := by
  have hnb : ∀ startV stopV : ClExpr F,
      (counterVar ((s.newValue startV).2.newValue stopV).2 var).2.nextBlock = s.nextBlock := by
    intro startV stopV
    unfold counterVar
    split <;> rfl
  simp only [lowerStmt, Except.bind_eq_error]
  constructor
  · rintro (h' | ⟨startV, hstart, h' | ⟨stopV, hstop, h' | ⟨item, hdef, h' | ⟨r, -, h'⟩⟩⟩⟩)
    · exact absurd h' lowerExpr_ne_panic
    · exact absurd h' lowerExpr_ne_panic
    · left
      refine ⟨⟨start, stop, startV, stopV, h.rangeBounds_eq, hstart, hstop⟩, ?_⟩
      by_contra hno
      obtain ⟨hflag, hvar⟩ := not_or.mp hno
      obtain ⟨item, hitem⟩ := (hs.counter_iff var stopV h hstart).mpr
        ⟨by simpa using hflag, hvar⟩
      have heq : (Except.error CompileError.panic : Except CompileError (Item F)) = .ok item :=
        h'.symm.trans hitem
      cases heq
    · rw [hnb] at h'
      exact .inr ⟨startV, stopV, item, hstart, hstop, hdef, h'⟩
    · cases h'
  · rintro (⟨⟨start', stop', startV, stopV, hbounds, hstart, hstop⟩, hbad⟩ |
      ⟨startV, stopV, item, hstart, hstop, hdef, hbody⟩)
    · rw [h.rangeBounds_eq] at hbounds
      cases hbounds
      refine .inr ⟨startV, hstart, .inr ⟨stopV, hstop, .inl ?_⟩⟩
      rw [defVar_eq_panic]
      intro hty
      obtain ⟨hflag, hvar⟩ := (hs.counter_iff var stopV h hstart).mp
        (defVar_isOk_iff.mpr hty)
      rcases hbad with hbad | hbad
      · rw [hflag] at hbad
        cases hbad
      · exact hvar hbad
    · refine .inr ⟨startV, hstart, .inr ⟨stopV, hstop, .inr ⟨item, hdef, .inl ?_⟩⟩⟩
      rw [hnb]
      exact hbody

/-- The panic comes from a statement that is met. -/
def PanicsWithin (cx : LowerCx) (loops : List LoopFrame) (w : Walker) (s : LowerState)
    (body : List (PyStmt F)) : Prop :=
  ∃ w₀ s₀ met, Meets cx loops w s body w₀ s₀ met ∧ MistypedAt cx w₀ s₀ met

mutual

theorem AcceptsStmt.panicsWithin : ∀ {w w' : Walker} {stmt : PyStmt F} {ir : Stmt F} {term : Bool}
    {loops : List LoopFrame} {s : LowerState}, AcceptsStmt w stmt ir term w' → InStep cx w s →
    (∀ d, w'.outputDtype = some d → cx.outputDtype = d) →
    lowerStmt cx loops ir s = .error .panic →
    ∀ rest, PanicsWithin cx loops w s (stmt :: rest)
  | _, _, _, _, _, _, _, .assign hvalue, hs, _, h => fun _ =>
    ⟨_, _, _, .here, (hvalue.assign_panic hs).mp h⟩
  | _, _, _, _, _, _, _, .augAssign _ _ hl _, hs, _, h => absurd h (augAssign_not_panic hl hs)
  | _, _, _, _, _, _, _, .ret hvalue hret, hs, hout, h => fun _ => by
    obtain ⟨rfl, -⟩ := Walker.recordReturn_eq_ok hret
    exact ⟨_, _, _, .here, (hvalue.ret_panic hs (hout _ rfl)).mp h⟩
  | _, _, _, _, _, _, _, .ifStmt htest hthen helse, hs, hout, h => fun _ => by
    simp only [lowerStmt, Except.bind_eq_error, Prod.exists] at h
    have hs₀ := (hs.createBlocks 3).setTerminated false
    rcases h with h | ⟨c, hc, h | ⟨code, s₁, hcode, h | ⟨code', s₂, -, h⟩⟩⟩
    · exact absurd h lowerExpr_ne_panic
    · obtain ⟨w₀, s₀, met, hmet, hbad⟩ := hthen.panicsWithin hs₀
        (fun d hd => hout d (helse.outputStays d hd)) rfl h
      exact ⟨w₀, s₀, met, .thenBody htest.expr_eq hc hmet, hbad⟩
    · have hs₁ := (hthen.inStep hs₀ rfl hcode).setTerminated false
      obtain ⟨w₀, s₀, met, hmet, hbad⟩ := helse.panicsWithin hs₁ hout rfl h
      exact ⟨w₀, s₀, met, .elseBody htest.expr_eq hc hthen.stmts_eq hcode hmet, hbad⟩
    · cases h
  | _, _, _, _, _, _, _, .forStmt hrange hbody, hs, hout, h => fun _ => by
    rcases (hrange.for_panic hs _ _).mp h with hbad | ⟨startV, stopV, item, hstart, hstop, hdef, hinner⟩
    · exact ⟨_, _, _, .here, hbad⟩
    · obtain ⟨-, hvar⟩ := (hs.counter_iff _ _ hrange hstart).mp ⟨item, hdef⟩
      obtain ⟨w₀, s₀, met, hmet, hbad⟩ := hbody.panicsWithin (hs.forBody _ _ hvar) hout rfl hinner
      exact ⟨w₀, s₀, met, .forBody hrange.rangeBounds_eq hstart hstop hdef hmet, hbad⟩
  | _, _, _, _, _, _, _, .whileStmt htest hbody, hs, hout, h => fun _ => by
    simp only [lowerStmt, Except.bind_eq_error, Prod.exists] at h
    rcases h with h | ⟨c, hc, h | ⟨code, s₁, -, h⟩⟩
    · exact absurd h lowerExpr_ne_panic
    · obtain ⟨w₀, s₀, met, hmet, hbad⟩ := hbody.panicsWithin
        ((hs.createBlocks 3).setTerminated false) hout rfl h
      exact ⟨w₀, s₀, met, .whileBody htest.expr_eq hc hmet, hbad⟩
    · cases h
  | _, _, _, _, _, loops, _, .brk, _, _, h | _, _, _, _, _, loops, _, .cont, _, _, h => by
    cases loops <;> cases h

theorem AcceptsBody.panicsWithin : ∀ {w w' : Walker} {first : Bool} {body : List (PyStmt F)}
    {irs : List (Stmt F)} {term : Bool} {loops : List LoopFrame} {s : LowerState},
    AcceptsBody w first body irs term w' → InStep cx w s →
    (∀ d, w'.outputDtype = some d → cx.outputDtype = d) → s.terminated = false →
    lowerBody cx loops irs s = .error .panic → PanicsWithin cx loops w s body
  | _, _, _, _, _, _, _, _, .nil, _, _, _, h => nomatch h
  | _, _, _, _, _, _, _, _, .docstring hdoc hrest, hs, hout, hrun, h => by
    obtain ⟨w₀, s₀, met, hmet, hbad⟩ := hrest.panicsWithin hs hout hrun h
    exact ⟨w₀, s₀, met, .docstring hdoc hmet, hbad⟩
  | _, _, _, _, _, _, _, _, .last hstmt, hs, hout, hrun, h => by
    rcases (lowerBody_cons_error hrun).mp h with h | ⟨c, s₁, -, h⟩
    · exact hstmt.panicsWithin hs hout h _
    · cases h
  | _, _, _, _, _, _, _, _, .cons hstmt hrest, hs, hout, hrun, h => by
    rcases (lowerBody_cons_error hrun).mp h with h | ⟨c, s₁, hc, h⟩
    · exact hstmt.panicsWithin hs (fun d hd => hout d (hrest.outputStays d hd)) h _
    · have hrun₁ : s₁.terminated = false :=
        (lowerStmt_terminated hrun hc).trans (hstmt.not_terminates rfl)
      obtain ⟨w₀, s₀, met, hmet, hbad⟩ := hrest.panicsWithin (hstmt.inStep hs hc) hout hrun₁ h
      exact ⟨w₀, s₀, met, .next hstmt.stmt_eq hc hmet, hbad⟩

end

theorem AcceptsStmt.mistyped_panic {stmt : PyStmt F} {ir : Stmt F} {term : Bool}
    (h : AcceptsStmt w stmt ir term w') (hs : InStep cx w s)
    (hout : ∀ d, w'.outputDtype = some d → cx.outputDtype = d) (hbad : MistypedAt cx w s stmt) :
    lowerStmt cx loops ir s = .error .panic := by
  cases h with
  | assign hvalue => exact (hvalue.assign_panic hs).mpr hbad
  | ret hvalue hret =>
    obtain ⟨rfl, -⟩ := Walker.recordReturn_eq_ok hret
    exact (hvalue.ret_panic hs (hout _ rfl)).mpr hbad
  | forStmt hrange _ => exact (hrange.for_panic hs _ _).mpr (.inl hbad)
  | augAssign | ifStmt | whileStmt | brk | cont => exact hbad.elim

/-- An error in the first statement is the error of the body. -/
theorem AcceptsBody.head_error {stmt : PyStmt F} {rest : List (PyStmt F)} {irs : List (Stmt F)}
    {first term : Bool} (h : AcceptsBody w first (stmt :: rest) irs term w')
    (hdoc : stmt.isDocstring = false) (hrun : s.terminated = false) :
    ∃ ir t w₁, AcceptsStmt w stmt ir t w₁ ∧ w₁.OutputStays w' ∧
      (lowerStmt cx loops ir s = .error .panic → lowerBody cx loops irs s = .error .panic) := by
  cases h with
  | docstring h _ =>
    rw [h] at hdoc
    cases hdoc
  | last hstmt =>
    exact ⟨_, _, _, hstmt, fun _ h => h, fun h => (lowerBody_cons_error hrun).mpr (.inl h)⟩
  | cons hstmt hrest =>
    exact ⟨_, _, _, hstmt, hrest.outputStays, fun h => (lowerBody_cons_error hrun).mpr (.inl h)⟩

/-- A statement that is met and defines a variable with a value of another type panics. -/
theorem Meets.panic {body : List (PyStmt F)} {irs : List (Stmt F)} {first term : Bool}
    {met : PyStmt F} (h : Meets cx loops w s body w₀ s₀ met)
    (hbody : AcceptsBody w first body irs term w') (hs : InStep cx w s)
    (hout : ∀ d, w'.outputDtype = some d → cx.outputDtype = d) (hrun : s.terminated = false)
    (hbad : MistypedAt cx w₀ s₀ met) : lowerBody cx loops irs s = .error .panic := by
  induction h generalizing first irs term w' with
  | @here _ _ _ stmt =>
    have hdoc : stmt.isDocstring = false := by
      cases stmt with
      | exprStmt => exact hbad.elim
      | _ => rfl
    obtain ⟨ir, t, w₁, hstmt, hstays, herror⟩ := hbody.head_error hdoc hrun
    exact herror (hstmt.mistyped_panic hs (fun d hd => hout d (hstays d hd)) hbad)
  | docstring hdoc _ ih =>
    cases hbody with
    | docstring _ hrest => exact ih hrest hs hout hrun hbad
    | last hstmt | cons hstmt _ =>
      rw [hstmt.not_docstring] at hdoc
      cases hdoc
  | next hwalk hlower _ ih =>
    have hstmt := Walker.acceptsStmt _ hwalk
    cases hbody with
    | docstring hdoc _ =>
      rw [hstmt.not_docstring] at hdoc
      cases hdoc
    | last hlast =>
      rw [hlast.stmt_eq] at hwalk
      cases hwalk
    | cons hcons hrest =>
      rw [hcons.stmt_eq] at hwalk
      cases hwalk
      have hrun₁ := (lowerStmt_terminated hrun hlower).trans (hstmt.not_terminates rfl)
      exact (lowerBody_cons_error hrun).mpr
        (.inr ⟨_, _, hlower, ih hrest (hstmt.inStep hs hlower) hout hrun₁ hbad⟩)
  | thenBody hwalk hc _ ih =>
    obtain ⟨_, _, _, hstmt, hstays, herror⟩ := hbody.head_error rfl hrun
    cases hstmt with
    | ifStmt htest hthen helse =>
      rw [htest.expr_eq] at hwalk
      cases hwalk
      have hinner := ih hthen ((hs.createBlocks 3).setTerminated false)
        (fun d hd => hout d (hstays d (helse.outputStays d hd))) rfl hbad
      refine herror ?_
      simp only [lowerStmt, Except.bind_eq_error, Prod.exists]
      exact .inr ⟨_, hc, .inl hinner⟩
  | elseBody hwalk hc hwalk' hlower _ ih =>
    obtain ⟨_, _, _, hstmt, hstays, herror⟩ := hbody.head_error rfl hrun
    cases hstmt with
    | ifStmt htest hthen helse =>
      rw [htest.expr_eq] at hwalk
      cases hwalk
      rw [hthen.stmts_eq] at hwalk'
      cases hwalk'
      have hs₁ := hthen.inStep ((hs.createBlocks 3).setTerminated false) rfl hlower
      have hinner := ih helse (hs₁.setTerminated false) (fun d hd => hout d (hstays d hd)) rfl hbad
      refine herror ?_
      simp only [lowerStmt, Except.bind_eq_error, Prod.exists]
      exact .inr ⟨_, hc, .inr ⟨_, _, hlower, .inl hinner⟩⟩
  | forBody hwalk hstart hstop hdef _ ih =>
    obtain ⟨_, _, _, hstmt, hstays, herror⟩ := hbody.head_error rfl hrun
    cases hstmt with
    | forStmt hrange hinner =>
      rw [hrange.rangeBounds_eq] at hwalk
      cases hwalk
      obtain ⟨-, hvar⟩ := (hs.counter_iff _ _ hrange hstart).mp ⟨_, hdef⟩
      have hpanic := ih hinner (hs.forBody _ _ hvar) (fun d hd => hout d (hstays d hd)) rfl hbad
      exact herror ((hrange.for_panic hs [] []).mpr
        (.inr ⟨_, _, _, hstart, hstop, hdef, hpanic⟩))
  | whileBody hwalk hc _ ih =>
    obtain ⟨_, _, _, hstmt, hstays, herror⟩ := hbody.head_error rfl hrun
    cases hstmt with
    | whileStmt htest hinner =>
      rw [htest.expr_eq] at hwalk
      cases hwalk
      have hpanic := ih hinner ((hs.createBlocks 3).setTerminated false)
        (fun d hd => hout d (hstays d hd)) rfl hbad
      refine herror ?_
      simp only [lowerStmt, Except.bind_eq_error, Prod.exists]
      exact .inr ⟨_, hc, .inl hpanic⟩

end Panics

/-! ## Kernels -/

/-- The `Lowerer` that goes through the statements of the kernel. -/
def Kernel.lowerCx (k : Kernel F) : LowerCx := if k.isVectorizablePhase1 then tailCx k else scalarCx k

def Kernel.lowerStart (k : Kernel F) : LowerState :=
  if k.isVectorizablePhase1 then tailStart k else scalarStart k

theorem inStep_lowerStart (k : Kernel F) (param : String) :
    InStep k.lowerCx (.init param k.inputDtype) k.lowerStart := by
  unfold Kernel.lowerCx Kernel.lowerStart
  split
  · exact inStep_tailStart k param
  · exact inStep_scalarStart k param

theorem Kernel.lowerStart_running (k : Kernel F) : k.lowerStart.terminated = false := by
  unfold Kernel.lowerStart
  split <;> rfl

theorem Kernel.lowerCx_outputDtype (k : Kernel F) : k.lowerCx.outputDtype = k.outputDtype := by
  unfold Kernel.lowerCx
  split <;> rfl

/-- The vector code of a pure expression is complete. -/
theorem simdLower_pure (inputDtype : Dtype) (param : ℕ) {e : Expr F} (h : isPureSimdExpr e = true)
    (d : Dtype) : ∃ c, simdLower inputDtype param e d = .ok c := by
  induction e generalizing d with
  | param | constI64 | constF64 | constBool => exact ⟨_, rfl⟩
  | localVar | mathCall => cases h
  | unary op e ih =>
    obtain ⟨c, hc⟩ := ih h d
    exact ⟨_, by simp only [simdLower, hc]; rfl⟩
  | binOp op l r ihl ihr =>
    obtain ⟨⟨hmod, hfloor, hdiv, hpow⟩, hl, hr⟩ := isPureSimdExpr_binOp h
    obtain ⟨cl, hcl⟩ := ihl hl d
    obtain ⟨cr, hcr⟩ := ihr hr d
    have hlower : simdLower inputDtype param (.binOp op l r) d = simdBinOp op cl cr d := by
      simp only [simdLower, hcl, hcr]
      rfl
    cases op with
    | add | sub | mul => cases d <;> exact ⟨_, hlower⟩
    | div => exact absurd rfl hdiv
    | floorDiv => exact absurd rfl hfloor
    | mod => exact absurd rfl hmod
    | pow => exact absurd rfl hpow
  | compare op l r ihl ihr =>
    simp only [isPureSimdExpr, Bool.and_eq_true] at h
    obtain ⟨cl, hcl⟩ := ihl h.1 (guessSimdCmpDtype inputDtype l r)
    obtain ⟨cr, hcr⟩ := ihr h.2 (guessSimdCmpDtype inputDtype l r)
    exact ⟨_, by simp only [simdLower, hcl, hcr]; rfl⟩
  | ifExpr c x y ihc ihx ihy =>
    simp only [isPureSimdExpr, Bool.and_eq_true] at h
    obtain ⟨cc, hcc⟩ := ihc h.1.1 .i64
    obtain ⟨cx, hcx⟩ := ihx h.1.2 d
    obtain ⟨cy, hcy⟩ := ihy h.2 d
    exact ⟨_, by simp only [simdLower, hcc, hcx, hcy]; rfl⟩
  | castToI64 e ih =>
    obtain ⟨c, hc⟩ := ih h .f64
    exact ⟨_, by simp only [simdLower, hc]; rfl⟩
  | castToF64 e ih =>
    obtain ⟨c, hc⟩ := ih h .i64
    exact ⟨_, by simp only [simdLower, hc]; rfl⟩

/-- A kernel panics while its statements are lowered, or not at all. -/
theorem compile_eq_panic {fl : FloatOps F} {k : Kernel F} :
    compile fl k = .error .panic ↔ lowerBody k.lowerCx [] k.body k.lowerStart = .error .panic := by
  have hdefine : ∀ {code : List (Item F)} {s : LowerState}, defineFunction code s ≠ .error .panic := by
    intro code s
    unfold defineFunction
    split <;> exact fun h => nomatch h
  unfold compile Kernel.lowerCx Kernel.lowerStart
  by_cases hvec : k.isVectorizablePhase1 = true
  · obtain ⟨value, hsr, hpure⟩ := singleReturn_of_vectorizable hvec
    obtain ⟨c, hc⟩ := simdLower_pure k.inputDtype 4 hpure k.outputDtype
    simp only [hvec, if_true, compileSimd, hsr, Except.bind_eq_error, hc]
    constructor
    · rintro (h | ⟨c, -, h | ⟨r, -, h⟩⟩)
      · cases h
      · exact h
      · exact absurd h hdefine
    · exact fun h => .inr ⟨c, rfl, .inl h⟩
  · simp only [hvec, compileScalar, Bool.false_eq_true, if_false, Except.bind_eq_error]
    constructor
    · rintro (h | ⟨r, -, h⟩)
      · exact h
      · exact absurd h hdefine
    · exact fun h => .inl h

/-- **Compilation panics** exactly where a statement that the code generator comes to binds,
returns or counts from the flag of a comparison, or counts in a variable that holds floats. The
exceptions that `json.dumps` and the walker raise at limits of the interpreter (the decimal digits
of an integer, the depth of the stack) are no panics and not in the model. -/
theorem compile_panic_free_iff (fl : FloatOps F) {d : Dtype} {node : FnNode F} {k : Kernel F}
    {param : String} (hwalk : walkFunction d node = some k) (hparam : node.params = [param]) :
    (compile fl k ≠ .error .panic ↔ ∀ w s stmt,
      Meets k.lowerCx [] (.init param d) k.lowerStart node.stmts w s stmt →
        ¬ MistypedAt k.lowerCx w s stmt) ∧
      (compile fl k ≠ .error .panic → tryCompile fl (some node) d ≠ .raises) := by
  obtain ⟨param', w', hparams, hbody, rfl, hout⟩ := walkFunction_accepts hwalk
  obtain rfl : param' = param := by simpa [hparams] using hparam
  have hs := inStep_lowerStart k param'
  have hdtype : ∀ d, w'.outputDtype = some d → k.lowerCx.outputDtype = d := by
    intro d hd
    rw [k.lowerCx_outputDtype, hout, hd, Option.getD_some]
  refine ⟨?_, fun hfree hraises => ?_⟩
  · rw [Ne, compile_eq_panic]
    constructor
    · intro hfree w s stmt hmet hbad
      exact hfree (hmet.panic hbody hs hdtype k.lowerStart_running hbad)
    · intro hall hpanic
      obtain ⟨w, s, stmt, hmet, hbad⟩ := hbody.panicsWithin hs hdtype k.lowerStart_running hpanic
      exact hall w s stmt hmet hbad
  · simp only [tryCompile, Option.bind_some, hwalk] at hraises
    split at hraises
    · split at hraises
      · cases hraises
      · next h => exact hfree h
      · cases hraises
    · cases hraises

/-- `def f(x): return x * 2 if x > 1 else x` -/
def doubleAboveOne : FnNode (BitVec 64) :=
  .functionDef ["x"] [.ret (some (.ifExp (.compare (.name "x") [.gt] [.constant (.int 1)])
    (.binOp (.name "x") .mult (.constant (.int 2))) (.name "x")))]

def doubleAboveOneKernel : Kernel (BitVec 64) :=
  ⟨.i64, .i64, [.ret (.ifExpr (.compare .gt .param (.constI64 1)) (.binOp .mul .param (.constI64 2))
    .param)]⟩

/-- Nothing in it is bound, returned or counted from a flag. -/
theorem compile_panic_free_doubleAboveOne :
    (∀ w s stmt, Meets doubleAboveOneKernel.lowerCx [] (.init "x" .i64) doubleAboveOneKernel.lowerStart
        doubleAboveOne.stmts w s stmt → ¬ MistypedAt doubleAboveOneKernel.lowerCx w s stmt) ∧
      tryCompile pyHostFloats (some doubleAboveOne) .i64 ≠ .raises := by
  obtain ⟨g, hg⟩ : ∃ g, compile pyHostFloats doubleAboveOneKernel = .ok g := ⟨_, rfl⟩
  have hfree : compile pyHostFloats doubleAboveOneKernel ≠ .error .panic := by simp [hg]
  obtain ⟨hiff, hraises⟩ := compile_panic_free_iff pyHostFloats
    (show walkFunction .i64 doubleAboveOne = some doubleAboveOneKernel from rfl) rfl
  exact ⟨hiff.mp hfree, hraises hfree⟩

/-- `def f(x):` with `above = x > 1` and `return x` -/
def bindsTest : FnNode (BitVec 64) :=
  .functionDef ["x"] [.assign [.name "above"] (.compare (.name "x") [.gt] [.constant (.int 1)]),
    .ret (some (.name "x"))]

/-- The flag goes to a variable of words. -/
theorem bindsTest_raises : (∃ k, walkFunction .i64 bindsTest = some k ∧
    compile pyHostFloats k = .error .panic) ∧ tryCompile pyHostFloats (some bindsTest) .i64 = .raises :=
  ⟨⟨_, rfl, rfl⟩, rfl⟩

end Gilmap
