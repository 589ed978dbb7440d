import Gilmap.Jit.SimdLoop

/-! # The vector code, lane by lane

What the code of `SimdLowerer` computes in one lane, as a function of the element in that
lane. A verified vector expression evaluates to the pair of its lanes.
-/
namespace Gilmap
variable {F : Type}

/-- `bitselect` in one lane; an integer mask is reinterpreted when the arms are floats. -/
def laneSelect (fl : FloatOps F) : Val F → Val F → Val F → Except Fault (Val F)
  | .i64 c, .i64 x, .i64 y => .ok (.i64 (blend c x y))
  | .i64 c, .f64 x, .f64 y =>
    .ok (.f64 (fl.ofBits (blend (fl.toBits (fl.ofBits c)) (fl.toBits x) (fl.toBits y))))
  | .f64 c, .f64 x, .f64 y =>
    .ok (.f64 (fl.ofBits (blend (fl.toBits c) (fl.toBits x) (fl.toBits y))))
  | _, _, _ => .error .illTyped

/-- A comparison in one lane. -/
def laneCompare (fl : FloatOps F) (op : CmpOp) (l r : Val F) (dtype : Dtype) :
    Except Fault (Val F) := do
  let flag ← evalCmpOp fl op l r dtype
  .ok (.i64 (maskOf (← flag.truthy)))

/-- One lane of the vector code of an expression. -/
def Sem.lane (S : Sem F) : Expr F → Dtype → Except Fault (Val F)
  | .param, expected => coerceVal S.fl S.param S.inputDtype expected
  | .constI64 value, expected => coerceVal S.fl (.i64 (BitVec.ofInt 64 value)) .i64 expected
  | .constF64 value, expected => coerceVal S.fl (.f64 value) .f64 expected
  | .constBool value, _ => .ok (.i64 (maskOf value))
  | .unary op operand, expected => do evalUnary S.fl op (← S.lane operand expected) expected
  | .binOp op left right, expected => do
    evalBinOp S.fl op (← S.lane left expected) (← S.lane right expected) expected
  | .compare op left right, _ => do
    let cmpDtype := guessSimdCmpDtype S.inputDtype left right
    laneCompare S.fl op (← S.lane left cmpDtype) (← S.lane right cmpDtype) cmpDtype
  | .ifExpr test yes no, expected => do
    laneSelect S.fl (← S.lane test .i64) (← S.lane yes expected) (← S.lane no expected)
  | .castToF64 value, _ => do (← S.lane value .i64).fcvtFromSint S.fl
  | .castToI64 value, _ => do (← S.lane value .f64).fcvtToSint S.fl
  | .localVar _, _ | .mathCall _ _, _ => .error .illTyped

/-- The values of the two lanes, with the type of their vector. -/
inductive LanePair : Val F → Val F → ClTy → Prop
  | i64 (a b : BitVec 64) : LanePair (.i64 a) (.i64 b) .i64x2
  | f64 (x y : F) : LanePair (.f64 x) (.f64 y) .f64x2

/-- Two elements in the lanes of value `p`, with the meanings `S` and `T` of the body. -/
structure Paired (S T : Sem F) (p : ℕ) (vals : ℕ → Val F) (valTys : ℕ → ClTy) : Prop where
  fl : T.fl = S.fl
  inputDtype : T.inputDtype = S.inputDtype
  first : S.param.ty = clType S.inputDtype
  second : T.param.ty = clType S.inputDtype
  loaded : vals p = packLanes S.param T.param
  loadedTy : valTys p = clVecType S.inputDtype

/-- The code `c` evaluates to the lanes `v` and `w`. -/
structure EvalLanes (fl : FloatOps F) (varTys valTys : ℕ → ClTy) (vars vals : ℕ → Val F)
    (c : ClExpr F) (x y : Except Fault (Val F)) (v w : Val F) : Prop where
  first : x = .ok v
  second : y = .ok w
  pair : LanePair v w (c.ty varTys valTys)
  eval : c.eval fl vars vals = .ok (packLanes v w)

section Operations
variable {fl : FloatOps F} {varTys valTys : ℕ → ClTy} {vars vals : ℕ → Val F} {c l r : ClExpr F}
  {x y x' y' : Except Fault (Val F)} {v w v' w' : Val F}

theorem EvalLanes.coerce (h : EvalLanes fl varTys valTys vars vals c x y v w) {actual expected : Dtype}
    (hty : c.ty varTys valTys = clVecType actual)
    (hv : (simdCoerce c actual expected).verify varTys valTys) :
    ∃ v₁ w₁, EvalLanes fl varTys valTys vars vals (simdCoerce c actual expected)
      (x >>= (coerceVal fl · actual expected)) (y >>= (coerceVal fl · actual expected)) v₁ w₁ := by
  obtain ⟨rfl, rfl, hpair, heval⟩ := h
  rw [hty] at hpair
  cases actual <;> cases expected
  · exact ⟨v, w, rfl, rfl, by rw [← hty] at hpair; exact hpair, heval⟩
  · cases hpair with
    | i64 a b =>
      refine ⟨.f64 (fl.ofInt a), .f64 (fl.ofInt b), rfl, rfl, .f64 _ _, ?_⟩
      simp only [simdCoerce, ClExpr.eval, heval]
      rfl
  · simp [simdCoerce, ClExpr.verify] at hv
  · exact ⟨v, w, rfl, rfl, by rw [← hty] at hpair; exact hpair, heval⟩

theorem EvalLanes.unary (h : EvalLanes fl varTys valTys vars vals c x y v w) {op : UnaryOp} {d : Dtype}
    (hv : (lowerUnary op c d).verify varTys valTys) :
    ∃ v₁ w₁, EvalLanes fl varTys valTys vars vals (lowerUnary op c d)
      (x >>= (evalUnary fl op · d)) (y >>= (evalUnary fl op · d)) v₁ w₁ := by
  obtain ⟨rfl, rfl, hpair, heval⟩ := h
  generalize hτ : c.ty varTys valTys = τ at hpair
  cases op with
  | plus => exact ⟨v, w, by cases d <;> rfl, by cases d <;> rfl, by
      cases d <;> exact hτ ▸ hpair, by cases d <;> exact heval⟩
  | neg =>
    cases d with
    | i64 =>
      simp only [lowerUnary, ClExpr.verify, hτ, Bool.and_eq_true, decide_eq_true_eq] at hv
      cases hpair with
      | i64 a b =>
        refine ⟨.i64 (-a), .i64 (-b), rfl, rfl, ?_, ?_⟩
        · simp only [lowerUnary, ClExpr.ty, hτ]
          exact .i64 _ _
        · simp only [lowerUnary, ClExpr.eval, heval]
          rfl
      | f64 => simp at hv
    | f64 =>
      simp only [lowerUnary, ClExpr.verify, hτ, Bool.and_eq_true, decide_eq_true_eq] at hv
      cases hpair with
      | f64 a b =>
        refine ⟨.f64 (fl.neg a), .f64 (fl.neg b), rfl, rfl, ?_, ?_⟩
        · simp only [lowerUnary, ClExpr.ty, hτ]
          exact .f64 _ _
        · simp only [lowerUnary, ClExpr.eval, heval]
          rfl
      | i64 => simp at hv

theorem EvalLanes.intBin (hl : EvalLanes fl varTys valTys vars vals l x y v w)
    (hr : EvalLanes fl varTys valTys vars vals r x' y' v' w') {op : IntBin}
    (hv : (ClExpr.intBin op l r).verify varTys valTys) :
    ∃ v₁ w₁, EvalLanes fl varTys valTys vars vals (.intBin op l r)
      (do (← x).intBin op (← x')) (do (← y).intBin op (← y')) v₁ w₁ := by
  obtain ⟨rfl, rfl, hpair, heval⟩ := hl
  obtain ⟨rfl, rfl, hpair', heval'⟩ := hr
  simp only [ClExpr.verify, Bool.and_eq_true, decide_eq_true_eq] at hv
  obtain ⟨⟨-, hint⟩, hlr⟩ := hv
  rw [← hlr] at hpair'
  generalize hτ : l.ty varTys valTys = τ at hpair hpair' hint
  cases hpair with
  | i64 a b =>
    cases hpair' with
    | i64 a' b' =>
      refine ⟨.i64 (op.apply a a'), .i64 (op.apply b b'), rfl, rfl, ?_, ?_⟩
      · rw [ClExpr.ty, hτ]
        exact .i64 _ _
      · simp only [ClExpr.eval, heval, heval']
        rfl
  | f64 => simp at hint

theorem EvalLanes.floatBin (hl : EvalLanes fl varTys valTys vars vals l x y v w)
    (hr : EvalLanes fl varTys valTys vars vals r x' y' v' w') {op : FloatBin}
    (hv : (ClExpr.floatBin op l r).verify varTys valTys) :
    ∃ v₁ w₁, EvalLanes fl varTys valTys vars vals (.floatBin op l r)
      (do (← x).floatBin fl op (← x')) (do (← y).floatBin fl op (← y')) v₁ w₁ := by
  obtain ⟨rfl, rfl, hpair, heval⟩ := hl
  obtain ⟨rfl, rfl, hpair', heval'⟩ := hr
  simp only [ClExpr.verify, Bool.and_eq_true, decide_eq_true_eq] at hv
  obtain ⟨⟨-, hfloat⟩, hlr⟩ := hv
  rw [← hlr] at hpair'
  generalize hτ : l.ty varTys valTys = τ at hpair hpair' hfloat
  cases hpair with
  | f64 a b =>
    cases hpair' with
    | f64 a' b' =>
      refine ⟨.f64 (fl.bin op a a'), .f64 (fl.bin op b b'), rfl, rfl, ?_, ?_⟩
      · rw [ClExpr.ty, hτ]
        exact .f64 _ _
      · simp only [ClExpr.eval, heval, heval']
        rfl
  | i64 => simp at hfloat

theorem EvalLanes.compare (hl : EvalLanes fl varTys valTys vars vals l x y v w)
    (hr : EvalLanes fl varTys valTys vars vals r x' y' v' w') {op : CmpOp} {d : Dtype}
    (hv : (lowerCmpOp op l r d).verify varTys valTys) :
    ∃ v₁ w₁, EvalLanes fl varTys valTys vars vals (lowerCmpOp op l r d)
      (do laneCompare fl op (← x) (← x') d) (do laneCompare fl op (← y) (← y') d) v₁ w₁ := by
  obtain ⟨rfl, rfl, hpair, heval⟩ := hl
  obtain ⟨rfl, rfl, hpair', heval'⟩ := hr
  cases d with
  | i64 =>
    simp only [lowerCmpOp, ClExpr.verify, Bool.and_eq_true, decide_eq_true_eq] at hv
    obtain ⟨⟨-, hint⟩, hlr⟩ := hv
    rw [← hlr] at hpair'
    generalize hτ : l.ty varTys valTys = τ at hpair hpair' hint
    cases hpair with
    | i64 a b =>
      cases hpair' with
      | i64 a' b' =>
        refine ⟨.i64 (maskOf (op.intCC.holds a a')), .i64 (maskOf (op.intCC.holds b b')), ?_, ?_, ?_, ?_⟩
        · cases hh : op.intCC.holds a a' <;> simp [laneCompare, evalCmpOp, Val.icmp, hh, bind, Except.bind,
            Val.truthy, flagOf]
        · cases hh : op.intCC.holds b b' <;> simp [laneCompare, evalCmpOp, Val.icmp, hh, bind, Except.bind,
            Val.truthy, flagOf]
        · simp only [lowerCmpOp, ClExpr.ty, hτ, if_true]
          exact .i64 _ _
        · simp only [lowerCmpOp, ClExpr.eval, heval, heval']
          rfl
    | f64 => simp at hint
  | f64 =>
    simp only [lowerCmpOp, ClExpr.verify, Bool.and_eq_true, decide_eq_true_eq] at hv
    obtain ⟨⟨-, hfloat⟩, hlr⟩ := hv
    rw [← hlr] at hpair'
    generalize hτ : l.ty varTys valTys = τ at hpair hpair' hfloat
    cases hpair with
    | f64 a b =>
      cases hpair' with
      | f64 a' b' =>
        refine ⟨.i64 (maskOf (fl.cmp op.floatCC a a')), .i64 (maskOf (fl.cmp op.floatCC b b')), ?_, ?_, ?_, ?_⟩
        · cases hh : fl.cmp op.floatCC a a' <;> simp [laneCompare, evalCmpOp, Val.fcmp, hh, bind, Except.bind,
            Val.truthy, flagOf]
        · cases hh : fl.cmp op.floatCC b b' <;> simp [laneCompare, evalCmpOp, Val.fcmp, hh, bind, Except.bind,
            Val.truthy, flagOf]
        · simp only [lowerCmpOp, ClExpr.ty, hτ, if_true]
          exact .i64 _ _
        · simp only [lowerCmpOp, ClExpr.eval, heval, heval']
          rfl
    | i64 => simp at hfloat

theorem EvalLanes.select {c : ClExpr F} {u t : Except Fault (Val F)} {a b : Val F}
    (hc : EvalLanes fl varTys valTys vars vals c u t a b)
    (hl : EvalLanes fl varTys valTys vars vals l x y v w)
    (hr : EvalLanes fl varTys valTys vars vals r x' y' v' w') {d : Dtype}
    (hv : (ClExpr.bitselect (match d with
      | .i64 => c
      | .f64 => .bitcastF64x2 c) l r).verify varTys valTys) :
    ∃ v₁ w₁, EvalLanes fl varTys valTys vars vals (.bitselect (match d with
        | .i64 => c
        | .f64 => .bitcastF64x2 c) l r)
      (do laneSelect fl (← u) (← x) (← x')) (do laneSelect fl (← t) (← y) (← y')) v₁ w₁ := by
  obtain ⟨rfl, rfl, hpairc, hevalc⟩ := hc
  obtain ⟨rfl, rfl, hpair, heval⟩ := hl
  obtain ⟨rfl, rfl, hpair', heval'⟩ := hr
  simp only [ClExpr.verify, Bool.and_eq_true, decide_eq_true_eq] at hv
  obtain ⟨⟨-, hcl⟩, hlr⟩ := hv
  rw [← hlr] at hpair'
  generalize hσ : c.ty varTys valTys = σ at hpairc
  generalize hτ : l.ty varTys valTys = τ at hpair hpair' hcl
  cases d with
  | i64 =>
    rw [hσ] at hcl
    subst hcl
    cases hpairc with
    | i64 m n =>
      cases hpair
      cases hpair'
      refine ⟨_, _, rfl, rfl, ?_, ?_⟩
      · rw [ClExpr.ty, hτ]
        exact .i64 _ _
      · simp only [ClExpr.eval, hevalc, heval, heval']
        rfl
    | f64 m n =>
      cases hpair
      cases hpair'
      refine ⟨_, _, rfl, rfl, ?_, ?_⟩
      · rw [ClExpr.ty, hτ]
        exact .f64 _ _
      · simp only [ClExpr.eval, hevalc, heval, heval']
        rfl
  | f64 =>
    rw [ClExpr.ty] at hcl
    subst hcl
    cases hpair
    cases hpair'
    cases hpairc with
    | i64 m n | f64 m n =>
      refine ⟨_, _, rfl, rfl, ?_, ?_⟩
      · rw [ClExpr.ty, hτ]
        exact .f64 _ _
      · simp only [ClExpr.eval, hevalc, heval, heval']
        rfl

theorem EvalLanes.fromSint (h : EvalLanes fl varTys valTys vars vals c x y v w)
    (hv : (ClExpr.fcvtFromSint .f64x2 c).verify varTys valTys) :
    ∃ v₁ w₁, EvalLanes fl varTys valTys vars vals (.fcvtFromSint .f64x2 c)
      (x >>= Val.fcvtFromSint fl) (y >>= Val.fcvtFromSint fl) v₁ w₁ := by
  obtain ⟨rfl, rfl, hpair, heval⟩ := h
  generalize hτ : c.ty varTys valTys = τ at hpair
  cases hpair with
  | i64 a b =>
    refine ⟨_, _, rfl, rfl, .f64 _ _, ?_⟩
    simp only [ClExpr.eval, heval]
    rfl
  | f64 => simp [ClExpr.verify, hτ] at hv

end Operations

/-! ## Whole expressions -/

section Expressions
variable {S T : Sem F} {p : ℕ} {varTys valTys : ℕ → ClTy} {vars vals : ℕ → Val F}

theorem simdBinOp_eq_ok {op : BinOp} {l r c : ClExpr F} {d : Dtype}
    (hpure : op ≠ .mod ∧ op ≠ .floorDiv ∧ op ≠ .div ∧ op ≠ .pow)
    (h : simdBinOp op l r d = .ok c) :
    (∃ iop, c = .intBin iop l r ∧ ∀ fl (v w : Val F), evalBinOp fl op v w d = v.intBin iop w) ∨
      ∃ fop, c = .floatBin fop l r ∧ ∀ fl (v w : Val F), evalBinOp fl op v w d = v.floatBin fl fop w := by
  obtain ⟨h₁, h₂, h₃, h₄⟩ := hpure
  cases op with
  | add | sub | mul =>
    cases d <;> cases h
    · exact .inl ⟨_, rfl, fun _ _ _ => rfl⟩
    · exact .inr ⟨_, rfl, fun _ _ _ => rfl⟩
  | mod | floorDiv | div | pow => contradiction

theorem isPureSimdExpr_binOp {op : BinOp} {l r : Expr F} (h : isPureSimdExpr (.binOp op l r) = true) :
    (op ≠ .mod ∧ op ≠ .floorDiv ∧ op ≠ .div ∧ op ≠ .pow) ∧ isPureSimdExpr l = true ∧
      isPureSimdExpr r = true := by
  cases op <;> simp [isPureSimdExpr] at h <;> simp [h]

/-! The operands of verified code are verified. -/

theorem lowerUnary_operand {op : UnaryOp} {c : ClExpr F} {d : Dtype}
    (hv : (lowerUnary op c d).verify varTys valTys) : c.verify varTys valTys := by
  cases op <;> cases d <;> simp_all [lowerUnary, ClExpr.verify]

theorem lowerCmpOp_operands {op : CmpOp} {l r : ClExpr F} {d : Dtype}
    (hv : (lowerCmpOp op l r d).verify varTys valTys) :
    l.verify varTys valTys ∧ r.verify varTys valTys := by
  cases d <;> simp only [lowerCmpOp, ClExpr.verify, Bool.and_eq_true] at hv <;> exact hv.1.1

theorem simdBinOp_operands {op : BinOp} {l r c : ClExpr F} {d : Dtype}
    (hpure : op ≠ .mod ∧ op ≠ .floorDiv ∧ op ≠ .div ∧ op ≠ .pow)
    (hc : simdBinOp op l r d = .ok c) (hv : c.verify varTys valTys) :
    l.verify varTys valTys ∧ r.verify varTys valTys := by
  rcases simdBinOp_eq_ok hpure hc with ⟨iop, rfl, -⟩ | ⟨fop, rfl, -⟩
  all_goals
    simp only [ClExpr.verify, Bool.and_eq_true] at hv
    exact hv.1.1

theorem bitselect_operands {mask c x y : ClExpr F} (hmask : mask = c ∨ mask = .bitcastF64x2 c)
    (hv : (ClExpr.bitselect mask x y).verify varTys valTys) :
    c.verify varTys valTys ∧ x.verify varTys valTys ∧ y.verify varTys valTys := by
  simp only [ClExpr.verify, Bool.and_eq_true] at hv
  refine ⟨?_, hv.1.1.1.2, hv.1.1.2⟩
  rcases hmask with rfl | rfl
  · exact hv.1.1.1.1
  · have hcast := hv.1.1.1.1
    simp only [ClExpr.verify, Bool.and_eq_true] at hcast
    exact hcast.1

/-- Verified vector code evaluates to the pair of its lanes. -/
theorem simdLower_lanes (hST : Paired S T p vals valTys) {e : Expr F} {d : Dtype} {c : ClExpr F}
    (hpure : isPureSimdExpr e = true) (hc : simdLower S.inputDtype p e d = .ok c)
    (hv : c.verify varTys valTys) :
    ∃ v w, EvalLanes S.fl varTys valTys vars vals c (S.lane e d) (T.lane e d) v w := by
  induction e generalizing d c with
  | param =>
    cases hc
    have hloaded : EvalLanes S.fl varTys valTys vars vals (.value p) (.ok S.param) (.ok T.param)
        S.param T.param := by
      refine ⟨rfl, rfl, ?_, congrArg _ hST.loaded⟩
      rw [ClExpr.ty, hST.loadedTy]
      have h₁ := hST.first
      have h₂ := hST.second
      cases hd : S.inputDtype with
      | i64 =>
        rw [hd] at h₁ h₂
        obtain ⟨a, ha⟩ := eq_i64_of_ty h₁
        obtain ⟨b, hb⟩ := eq_i64_of_ty h₂
        rw [ha, hb]
        exact .i64 a b
      | f64 =>
        rw [hd] at h₁ h₂
        obtain ⟨a, ha⟩ := eq_f64_of_ty h₁
        obtain ⟨b, hb⟩ := eq_f64_of_ty h₂
        rw [ha, hb]
        exact .f64 a b
    simp only [Sem.lane, hST.fl, hST.inputDtype]
    exact hloaded.coerce hST.loadedTy hv
  | constI64 value =>
    cases hc
    have hconst : EvalLanes S.fl varTys valTys vars vals (.splat (.iconst (BitVec.ofInt 64 value)))
        (.ok (.i64 (BitVec.ofInt 64 value))) (.ok (.i64 (BitVec.ofInt 64 value))) _ _ :=
      ⟨rfl, rfl, .i64 _ _, rfl⟩
    simp only [Sem.lane, hST.fl]
    exact hconst.coerce rfl hv
  | constF64 value =>
    cases hc
    have hconst : EvalLanes S.fl varTys valTys vars vals (.splat (.f64const value))
        (.ok (.f64 value)) (.ok (.f64 value)) _ _ := ⟨rfl, rfl, .f64 _ _, rfl⟩
    simp only [Sem.lane, hST.fl]
    exact hconst.coerce rfl hv
  | constBool value =>
    cases hc
    exact ⟨_, _, rfl, rfl, .i64 _ _, rfl⟩
  | unary op e ih =>
    simp only [simdLower, Except.bind_eq_ok] at hc
    obtain ⟨c₀, hc₀, he⟩ := hc
    cases he
    obtain ⟨v, w, h⟩ := ih hpure hc₀ (lowerUnary_operand hv)
    simp only [Sem.lane, hST.fl]
    exact h.unary hv
  | binOp op l r ihl ihr =>
    obtain ⟨hop, hpl, hpr⟩ := isPureSimdExpr_binOp hpure
    simp only [simdLower, Except.bind_eq_ok] at hc
    obtain ⟨cl, hcl, cr, hcr, hc⟩ := hc
    obtain ⟨hvl, hvr⟩ := simdBinOp_operands hop hc hv
    obtain ⟨v, w, hl⟩ := ihl hpl hcl hvl
    obtain ⟨v', w', hr⟩ := ihr hpr hcr hvr
    simp only [Sem.lane, hST.fl]
    rcases simdBinOp_eq_ok hop hc with ⟨iop, rfl, heq⟩ | ⟨fop, rfl, heq⟩
    · simp only [heq]
      exact hl.intBin hr hv
    · simp only [heq]
      exact hl.floatBin hr hv
  | compare op l r ihl ihr =>
    simp only [isPureSimdExpr, Bool.and_eq_true] at hpure
    simp only [simdLower, Except.bind_eq_ok] at hc
    obtain ⟨cl, hcl, cr, hcr, hc⟩ := hc
    cases hc
    obtain ⟨hvl, hvr⟩ := lowerCmpOp_operands hv
    obtain ⟨v, w, hl⟩ := ihl hpure.1 hcl hvl
    obtain ⟨v', w', hr⟩ := ihr hpure.2 hcr hvr
    simp only [Sem.lane, hST.fl, hST.inputDtype]
    exact hl.compare hr hv
  | ifExpr t x y iht ihx ihy =>
    simp only [isPureSimdExpr, Bool.and_eq_true] at hpure
    simp only [simdLower, Except.bind_eq_ok] at hc
    obtain ⟨ct, hct, cx, hcx, cy, hcy, hc⟩ := hc
    cases hc
    obtain ⟨hvt, hvx, hvy⟩ := bitselect_operands (c := ct) (by cases d <;> simp) hv
    obtain ⟨a, b, ht⟩ := iht hpure.1.1 hct hvt
    obtain ⟨v, w, hx⟩ := ihx hpure.1.2 hcx hvx
    obtain ⟨v', w', hy⟩ := ihy hpure.2 hcy hvy
    simp only [Sem.lane, hST.fl]
    exact ht.select hx hy hv
  | castToF64 e ih =>
    simp only [simdLower, Except.bind_eq_ok] at hc
    obtain ⟨c₀, hc₀, he⟩ := hc
    cases he
    have hv₀ : c₀.verify varTys valTys := by
      simp only [ClExpr.verify, Bool.and_eq_true] at hv
      exact hv.1
    obtain ⟨v, w, h⟩ := ih hpure hc₀ hv₀
    simp only [Sem.lane, hST.fl]
    exact h.fromSint hv
  | castToI64 e ih =>
    simp only [simdLower, Except.bind_eq_ok] at hc
    obtain ⟨c₀, hc₀, he⟩ := hc
    cases he
    simp [ClExpr.verify] at hv
  | localVar | mathCall => simp [isPureSimdExpr] at hpure

end Expressions

end Gilmap
