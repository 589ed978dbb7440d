import Gilmap.Jit.ExprTypes

/-! # Runs of typed bodies

From an environment that gives every local a value of its type, a compiled body runs into
nothing but traps of the machine, and what it returns has the output type.
-/
namespace Gilmap
variable {F : Type}

/-! ## Expressions -/

/-- The outcome has the type, or is a trap. -/
inductive Traps (t : ClTy) : Except Fault (Val F) → Prop
  | ok {v : Val F} : v.ty = t → Traps t (.ok v)
  | trap (code : TrapCode) : Traps t (.error (.trap code))

section Values
variable {t t' : ClTy} {x : Except Fault (Val F)} {v w : Val F}

theorem Traps.of_hasTy (h : HasTy t x) (hs : Settled x) : Traps t x := by
  cases x with
  | ok v => exact .ok h
  | error f =>
    cases f with
    | trap code => exact .trap code
    | unassigned name => exact absurd rfl (hs name)
    | illTyped => exact absurd rfl h

theorem Traps.bind {f : Val F → Except Fault (Val F)} (h : Traps t x)
    (hf : ∀ v, v.ty = t → Traps t' (f v)) : Traps t' (x >>= f) := by
  cases h with
  | ok hv => exact hf _ hv
  | trap code => exact .trap code

/-- The computation fails only for the types of its operands. -/
def Untrapped {α : Type} (x : Except Fault α) : Prop := ∀ f, x = .error f → f = .illTyped

theorem Untrapped.bind {α β : Type} {x : Except Fault α} {g : α → Except Fault β} (h : Untrapped x)
    (hg : ∀ a, Untrapped (g a)) : Untrapped (x >>= g) := by
  cases x with
  | error e =>
    intro f hf
    cases hf
    exact h e rfl
  | ok a => exact hg a

theorem untrapped_ok {α : Type} (a : α) : Untrapped (.ok a) := fun _ h => nomatch h

theorem untrapped_coerceVal {fl : FloatOps F} (v : Val F) {actual expected : Dtype}
    (h : expected = .f64 ∨ actual = .i64) : Untrapped (coerceVal fl v actual expected) := by
  cases actual <;> cases expected <;> simp only [coerceVal]
  · exact untrapped_ok v
  · cases v <;> simp [Untrapped, Val.fcvtFromSint]
  · simp at h
  · exact untrapped_ok v

/-- What has a type and fails for types only does not fail. -/
theorem Traps.exists_ok (h : Traps t x) (hx : Untrapped x) : ∃ v, x = .ok v ∧ v.ty = t := by
  cases h with
  | ok hv => exact ⟨_, rfl, hv⟩
  | trap code => cases hx _ rfl

theorem words_of_lane (h : t ∈ laneTys .i64) : t ∈ [ClTy.i8, .i64, .i64x2] := by
  rcases List.mem_cons.mp h with rfl | h
  · simp
  · rw [List.mem_singleton.mp h]
    simp

theorem floats_of_lane (h : t ∈ laneTys .f64) : t ∈ [ClTy.f64, .f64x2] := by
  rw [List.mem_singleton.mp h]
  simp

theorem traps_coerceVal (fl : FloatOps F) {actual : Dtype} (h : v.ty = clType actual) (expected : Dtype) :
    Traps (clType expected) (coerceVal fl v actual expected) := by
  apply Traps.of_hasTy _ (settled_coerceVal fl v actual expected)
  cases actual with
  | i64 =>
    cases expected with
    | i64 => exact h
    | f64 => exact hasTy_fcvtFromSint fl (.inl ⟨rfl, by simp [h, clType]⟩)
  | f64 =>
    cases expected with
    | i64 => exact hasTy_fcvtToSint fl h
    | f64 => exact h

theorem traps_evalUnary (fl : FloatOps F) {op : UnaryOp} {d : Dtype} (hv : v.ty = t)
    (hop : op = .neg → t ∈ laneTys d) : Traps t (evalUnary fl op v d) := by
  apply Traps.of_hasTy _ (settled_evalUnary fl op v d)
  subst hv
  cases op with
  | plus => cases d <;> rfl
  | neg =>
    cases d with
    | i64 => exact hasTy_ineg (words_of_lane (hop rfl))
    | f64 => exact hasTy_fneg fl (floats_of_lane (hop rfl))

theorem traps_evalBinOp (fl : FloatOps F) {op : BinOp} {d : Dtype} (hv : v.ty = t) (hw : w.ty = t)
    (ht : t ∈ laneTys d) (hop : op.worksAt d = true) : Traps t (evalBinOp fl op v w d) := by
  apply Traps.of_hasTy _ (settled_evalBinOp fl op v w d)
  subst hv
  cases d with
  | i64 =>
    cases op with
    | add | sub | mul => exact hasTy_intBin _ (words_of_lane ht) hw.symm
    | div | floorDiv => exact hasTy_sdiv ht hw.symm
    | mod => exact hasTy_srem ht hw.symm
    | pow => cases hop
  | f64 =>
    cases op with
    | add | sub | mul | div => exact hasTy_floatBin fl _ (floats_of_lane ht) hw.symm
    | pow =>
      have hf : v.ty = .f64 := List.mem_singleton.mp ht
      rw [hf]
      exact hasTy_callPow fl hf (hw.trans hf)
    | floorDiv | mod => cases hop

/-- A comparison of scalars is a flag. -/
theorem traps_evalCmpOp (fl : FloatOps F) {op : CmpOp} {d : Dtype} (hv : v.ty = t) (hw : w.ty = t)
    (ht : t ∈ laneTys d) : Traps .i8 (evalCmpOp fl op v w d) := by
  apply Traps.of_hasTy _ (settled_evalCmpOp fl op v w d)
  subst hv
  cases d with
  | i64 =>
    have hcmp := hasTy_icmp op.intCC (words_of_lane ht) hw.symm
    rwa [if_neg] at hcmp
    rintro h
    rw [h] at ht
    simp [laneTys] at ht
  | f64 =>
    have hf : v.ty = .f64 := List.mem_singleton.mp ht
    have hcmp := hasTy_fcmp fl op.floatCC (floats_of_lane ht) hw.symm
    rwa [if_neg (by simp [hf])] at hcmp

/-- A word or a flag decides a test. -/
theorem truthy_of_lane (h : v.ty ∈ laneTys .i64) : ∃ b, v.truthy = .ok b := by
  cases v with
  | i8 b | i64 b => exact ⟨_, rfl⟩
  | f64 | i64x2 | f64x2 => simp [laneTys, Val.ty] at h

end Values

/-- Every local has a value of its type, and so has the parameter. -/
structure Sem.Held (S : Sem F) (ρ : Env F) : Prop where
  param : S.param.ty = clType S.inputDtype
  read : ∀ {name d}, S.locals name = some d → ∃ x, S.readLocal ρ name = .ok x ∧ x.ty = clType d

section Expressions
variable {S : Sem F} {ρ : Env F} {e : Expr F} {d : Dtype} {t : ClTy} {name : String} {v : Val F}

/-- **Typed expressions trap or have their type.** -/
theorem Sem.ExprTy.traps (h : S.ExprTy e d t) (hρ : S.Held ρ) : Traps t (S.eval ρ e d) := by
  induction h with
  | param => exact traps_coerceVal S.fl hρ.param _
  | @localVar name d d' hl =>
    obtain ⟨x, hx, hty⟩ := hρ.read hl
    simp only [eval, hl, hx]
    exact traps_coerceVal S.fl hty d
  | constI64 => exact traps_coerceVal S.fl (show (Val.i64 _).ty = clType .i64 from rfl) _
  | constF64 => exact traps_coerceVal S.fl (show (Val.f64 _).ty = clType .f64 from rfl) _
  | constBool => exact .ok rfl
  | unary _ hop ih => exact ih.bind fun v hv => traps_evalUnary S.fl hv hop
  | binOp _ _ ht hop ihl ihr => exact ihl.bind fun v hv => ihr.bind fun w hw => traps_evalBinOp S.fl hv hw ht hop
  | compare _ _ ht ihl ihr => exact ihl.bind fun v hv => ihr.bind fun w hw => traps_evalCmpOp S.fl hv hw ht
  | ifExpr _ hs _ _ ihc ihx ihy =>
    refine ihc.bind fun u hu => ihx.bind fun v hv => ihy.bind fun w hw => ?_
    subst hv
    exact .of_hasTy (hasTy_select (hu ▸ hs) hw.symm) (settled_select u v w)
  | mathCall _ ih => exact ih.bind fun v hv => .of_hasTy (hasTy_callLibm S.fl _ hv) (settled_callLibm S.fl _ v)
  | castToI64 _ ih => exact ih.bind fun v hv => .of_hasTy (hasTy_fcvtToSint S.fl hv) (settled_fcvtToSint S.fl v)
  | castToF64 _ ht ih =>
    refine ih.bind fun v hv => .of_hasTy (hasTy_fcvtFromSint S.fl (.inl ⟨rfl, ?_⟩)) (settled_fcvtFromSint S.fl v)
    exact hv ▸ ht

/-- A test decides or traps. -/
theorem Sem.TestTy.decides (h : S.TestTy e) (hρ : S.Held ρ) :
    (∃ b, S.test ρ e = .ok b) ∨ ∃ code, S.test ρ e = .error (.trap code) := by
  obtain ⟨t, hty, ht⟩ := h
  unfold Sem.test
  generalize hx : S.eval ρ e .i64 = x
  have htraps := hty.traps hρ
  rw [hx] at htraps
  cases htraps with
  | ok hv => exact .inl (truthy_of_lane (hv ▸ ht))
  | trap code => exact .inr ⟨code, rfl⟩

theorem Sem.Held.set (hρ : S.Held ρ) (hl : S.locals name = some d) (hv : v.ty = clType d) :
    S.Held (ρ.set name v) where
  param := hρ.param
  read {n d'} hn := by
    by_cases he : n = name
    · subst he
      rw [hl] at hn
      cases hn
      exact ⟨v, by simp [readLocal], hv⟩
    · obtain ⟨x, hx, hty⟩ := hρ.read hn
      refine ⟨x, ?_, hty⟩
      rw [← hx]
      simp only [readLocal, Env.set_of_ne ρ he]

end Expressions

/-! ## Bodies -/

/-- The run goes on from a held environment with a value of the type, traps, or is not done. -/
inductive Sem.Sound (S : Sem F) : Res F → Prop
  | unfinished : Sound S none
  | trap (code : TrapCode) : Sound S (some (.error (.trap code)))
  | normal {ρ : Env F} : S.Held ρ → Sound S (some (.ok (.normal ρ)))
  | brk {ρ : Env F} : S.Held ρ → Sound S (some (.ok (.brk ρ)))
  | cont {ρ : Env F} : S.Held ρ → Sound S (some (.ok (.cont ρ)))
  | ret {ρ : Env F} {v : Val F} : S.Held ρ → v.ty = clType S.outputDtype → Sound S (some (.ok (.ret v ρ)))

namespace Sem
variable {S : Sem F} {ρ : Env F}

theorem Sound.loopNext {r : Res F} {again : Env F → Res F} (h : S.Sound r)
    (ha : ∀ ρ, S.Held ρ → S.Sound (again ρ)) : S.Sound (loopNext r again) := by
  cases h with
  | unfinished => exact .unfinished
  | trap code => exact .trap code
  | normal hρ | cont hρ => exact ha _ hρ
  | brk hρ => exact .normal hρ
  | ret hρ hv => exact .ret hρ hv

/-- Behind a statement that is never left normally nothing is run. -/
theorem Sound.andThen {r : Res F} {k : Env F → Res F} (h : S.Sound r)
    (hk : ∀ ρ, r = some (.ok (.normal ρ)) → S.Held ρ → S.Sound (k ρ)) : S.Sound (andThen r k) := by
  cases h with
  | unfinished => exact .unfinished
  | trap code => exact .trap code
  | normal hρ => exact hk _ rfl hρ
  | cont hρ => exact .cont hρ
  | brk hρ => exact .brk hρ
  | ret hρ hv => exact .ret hρ hv

theorem sound_forLoop {var : String} {stop : BitVec 64} {body : Env F → Res F}
    (hvar : S.locals var = some .i64) (hbody : ∀ ρ, S.Held ρ → S.Sound (body ρ)) (n : ℕ) (hρ : S.Held ρ) :
    S.Sound (S.forLoop var (.i64 stop) body n ρ) := by
  induction n generalizing ρ with
  | zero => exact .unfinished
  | succ n ih =>
    obtain ⟨x, hx, hty⟩ := hρ.read hvar
    obtain ⟨a, rfl⟩ := eq_i64_of_ty hty
    simp only [forLoop, below, hx, Val.icmp, Val.truthy, bind, Except.bind]
    split
    · rename_i h
      cases h
    · exact .normal hρ
    · apply (hbody ρ hρ).loopNext
      intro ρ' hρ'
      obtain ⟨y, hy, hty'⟩ := hρ'.read hvar
      obtain ⟨b, rfl⟩ := eq_i64_of_ty hty'
      simp only [bump, hy, Val.intBin, bind, Except.bind]
      exact ih (hρ'.set hvar rfl)

theorem sound_whileLoop {cond : Expr F} {body : Env F → Res F} (hcond : S.TestTy cond)
    (hbody : ∀ ρ, S.Held ρ → S.Sound (body ρ)) (n : ℕ) (hρ : S.Held ρ) :
    S.Sound (S.whileLoop cond body n ρ) := by
  induction n generalizing ρ with
  | zero => exact .unfinished
  | succ n ih =>
    simp only [whileLoop]
    rcases hcond.decides hρ with ⟨b, hb⟩ | ⟨code, hcode⟩
    · rw [hb]
      cases b with
      | false => exact .normal hρ
      | true => exact (hbody ρ hρ).loopNext fun ρ' hρ' => ih hρ'
    · rw [hcode]
      exact .trap code

/-- A statement that ends normally is not the last one of its block. -/
theorem terminates_of_normal {n : ℕ} {stmt : Stmt F} {ρ' : Env F}
    (h : S.execStmt n stmt ρ = some (.ok (.normal ρ'))) : stmt.terminates = false := by
  cases stmt with
  | assign | forRange | whileDo | ifElse => rfl
  | brk | cont =>
    simp only [execStmt] at h
    cases h
  | ret value =>
    simp only [execStmt] at h
    split at h <;> cases h

mutual

theorem sound_execStmt (n : ℕ) :
    ∀ (stmt : Stmt F) (ρ : Env F), S.stmtTyped stmt → S.Held ρ → S.Sound (S.execStmt n stmt ρ)
  | .assign name dtype value, ρ, hty, hρ => by
    obtain ⟨hl, he⟩ := hty
    have htraps := he.traps hρ
    simp only [execStmt]
    generalize S.eval ρ value dtype = x at htraps
    cases htraps with
    | ok hv => exact .normal (hρ.set hl hv)
    | trap code => exact .trap code
  | .ret value, ρ, hty, hρ => by
    have htraps := ExprTy.traps hty hρ
    simp only [execStmt]
    generalize S.eval ρ value S.outputDtype = x at htraps
    cases htraps with
    | ok hv => exact .ret hρ hv
    | trap code => exact .trap code
  | .forRange var start stop body, ρ, hty, hρ => by
    obtain ⟨hl, hstart, hstop, hbody⟩ := hty
    have hfrom := hstart.traps hρ
    have hto := hstop.traps hρ
    simp only [execStmt]
    generalize S.eval ρ start .i64 = x at hfrom
    generalize S.eval ρ stop .i64 = y at hto
    cases hfrom with
    | trap code => exact .trap code
    | ok hv =>
      cases hto with
      | trap code => exact .trap code
      | ok hw =>
        obtain ⟨b, rfl⟩ := eq_i64_of_ty hw
        exact sound_forLoop hl (fun ρ hρ => sound_execBody n body ρ hbody hρ) n (hρ.set hl hv)
  | .whileDo cond body, ρ, hty, hρ =>
    sound_whileLoop hty.1 (fun ρ hρ => sound_execBody n body ρ hty.2 hρ) n hρ
  | .ifElse test thenBody elseBody, ρ, hty, hρ => by
    obtain ⟨htest, hthen, helse⟩ := hty
    simp only [execStmt]
    rcases htest.decides hρ with ⟨b, hb⟩ | ⟨code, hcode⟩
    · rw [hb]
      cases b with
      | true => exact sound_execBody n thenBody ρ hthen hρ
      | false => exact sound_execBody n elseBody ρ helse hρ
    · rw [hcode]
      exact .trap code
  | .brk, _, _, hρ => .brk hρ
  | .cont, _, _, hρ => .cont hρ

theorem sound_execBody (n : ℕ) :
    ∀ (body : List (Stmt F)) (ρ : Env F), S.bodyTyped body → S.Held ρ → S.Sound (S.execBody n body ρ)
  | [], _, _, hρ => .normal hρ
  | stmt :: rest, ρ, hty, hρ => (sound_execStmt n stmt ρ hty.1 hρ).andThen fun ρ' h hρ' =>
    sound_execBody n rest ρ' (hty.2 (terminates_of_normal h)) hρ'

end

end Sem

end Gilmap
