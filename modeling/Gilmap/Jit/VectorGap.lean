import Gilmap.Jit.CmpGuess
import Gilmap.Jit.Panics
import Gilmap.Jit.Truncation

/-! # Where the vector code is rejected

A vectorizable kernel is compiled as vector code and not tried otherwise. Vectors have no
conversion from floats to integers; the code generator emits one for `int` of a float, and
for a float that is the test of a ternary.
-/
namespace Gilmap
variable {F : Type}

/-- The code converts a float to an integer. -/
def Walker.roundsFloat (w : Walker) : PyExpr F → Bool
  | .unaryOp _ operand => w.roundsFloat operand
  | .binOp left _ right => w.roundsFloat left || w.roundsFloat right
  | .compare left _ [right] => w.roundsFloat left || w.roundsFloat right
  | .ifExp test body orelse =>
    w.tag test = some .f64 || w.roundsFloat test || w.roundsFloat body || w.roundsFloat orelse
  | .call (.name id) [arg] [] => (id = "int" && w.tag arg = some .f64) || w.roundsFloat arg
  | _ => false

/-! ## Vector code -/

section Vector
variable {w : Walker} {S : Sem F} {varTys valTys : ℕ → ClTy} {p : ℕ}

/-- Vector code that is rejected, or accepted with the type. -/
def VecCode (varTys valTys : ℕ → ClTy) (c : ClExpr F) (t : ClTy) (rounds : Bool) : Prop :=
  if rounds then c.verify varTys valTys = false
  else c.verify varTys valTys = true ∧ c.ty varTys valTys = t

theorem vecCode_true {c : ClExpr F} {t : ClTy} :
    VecCode varTys valTys c t true ↔ c.verify varTys valTys = false := Iff.rfl

theorem vecCode_false {c : ClExpr F} {t : ClTy} :
    VecCode varTys valTys c t false ↔ c.verify varTys valTys = true ∧ c.ty varTys valTys = t := Iff.rfl

/-- Code of one operand is rejected where the operand's is. -/
theorem VecCode.one {c' c : ClExpr F} {t' t : ClTy} {a : Bool} (h : VecCode varTys valTys c' t' a)
    (hreject : c'.verify varTys valTys = false → c.verify varTys valTys = false)
    (haccept : c'.verify varTys valTys = true → c'.ty varTys valTys = t' →
      c.verify varTys valTys = true ∧ c.ty varTys valTys = t) : VecCode varTys valTys c t a := by
  cases a with
  | true => exact hreject h
  | false => exact haccept h.1 h.2

/-- Code of two operands is rejected where one of theirs is. -/
theorem VecCode.both {cl cr c : ClExpr F} {tl tr t : ClTy} {a b : Bool}
    (hl : VecCode varTys valTys cl tl a) (hr : VecCode varTys valTys cr tr b)
    (hreject : cl.verify varTys valTys = false ∨ cr.verify varTys valTys = false →
      c.verify varTys valTys = false)
    (haccept : cl.verify varTys valTys = true → cr.verify varTys valTys = true →
      cl.ty varTys valTys = tl → cr.ty varTys valTys = tr →
      c.verify varTys valTys = true ∧ c.ty varTys valTys = t) : VecCode varTys valTys c t (a || b) := by
  cases a with
  | true => exact hreject (.inl hl)
  | false =>
    cases b with
    | true => exact hreject (.inr hr)
    | false => exact haccept hl.1 hr.1 hl.2 hr.2

theorem simdBinOp_rejected {op : BinOp} {l r c : ClExpr F} {d : Dtype} (hc : simdBinOp op l r d = .ok c)
    (h : l.verify varTys valTys = false ∨ r.verify varTys valTys = false) :
    c.verify varTys valTys = false := by
  cases op <;> cases d <;> cases hc <;> rcases h with h | h <;> simp [ClExpr.verify, h]

/-- An operand lifted to a float has no integer type. -/
theorem eq_f64_of_lifted {ir : Expr F} {d : Dtype} {t : ClTy} (hty : S.ExprTy (liftTo ir d .f64) .i64 t)
    (ht : t ∈ laneTys .i64) : d = .f64 := by
  cases d with
  | i64 =>
    cases hty
    simp [laneTys] at ht
  | f64 => rfl

/-- A float that is lowered where an integer is wanted is converted. -/
theorem Accepts.converted {e : PyExpr F} {ir : Expr F} {d : Dtype} (h : Accepts w e ir d)
    (hinput : w.inputDtype = S.inputDtype) (hpure : isPureSimdExpr ir = true) (hd : d = .f64)
    {t : ClTy} (hty : S.ExprTy ir .i64 t) (ht : t ∈ laneTys .i64) {c : ClExpr F}
    (hc : simdLower S.inputDtype p ir .i64 = .ok c) : c.verify varTys valTys = false := by
  induction h generalizing t c with
  | param =>
    rw [← hinput, hd] at hc
    cases hc
    rfl
  | localVar | math => cases hpure
  | bool | int | compare | toInt => cases hd
  | float x =>
    cases hc
    rfl
  | @unaryOp op irOp e ir d _ _ ih =>
    simp only [simdLower, Except.bind_eq_ok] at hc
    obtain ⟨v, hv, hc⟩ := hc
    cases hc
    cases hty with
    | unary he _ =>
      have hv := ih hpure hd he ht hv
      cases irOp <;> simp [lowerUnary, ClExpr.verify, hv]
  | @binOp op irOp left right l r lt rt _ _ _ _ ihl _ =>
    simp only [simdLower, Except.bind_eq_ok] at hc
    obtain ⟨cl, hcl, cr, -, hc⟩ := hc
    rw [hd] at hty hcl
    cases hty with
    | binOp hl _ _ _ =>
      obtain rfl := eq_f64_of_lifted hl ht
      have hpl : isPureSimdExpr l = true := isPure_liftTo ▸ (isPureSimdExpr_binOp hpure).2.1
      rw [liftTo_self] at hl hcl
      exact simdBinOp_rejected hc (.inl (ihl hpl rfl hl ht hcl))
  | @ifExp _ _ _ _ y _ _ yt nt _ _ _ _ ihy _ =>
    simp only [simdLower, Except.bind_eq_ok] at hc
    obtain ⟨cc, -, cy, hcy, cn, -, hc⟩ := hc
    cases hc
    rw [hd] at hty hcy
    simp only [isPureSimdExpr, isPure_liftTo, Bool.and_eq_true] at hpure
    cases hty with
    | ifExpr _ _ hy _ =>
      obtain rfl := eq_f64_of_lifted hy ht
      rw [liftTo_self] at hy hcy
      have hcy := ihy hpure.1.2 rfl hy ht hcy
      simp [ClExpr.verify, hcy]
  | @toFloat _ a at_ _ ih =>
    obtain rfl := eq_f64_of_lifted hty ht
    rw [liftTo_self] at hty hc hpure
    exact ih hpure rfl hty ht hc

theorem simdLower_lifted {ir : Expr F} {d j : Dtype} {rounds : Bool} {t : ClTy} {c : ClExpr F}
    (ih : ∀ {t : ClTy}, S.ExprTy ir d t → t ∈ laneTys d → ∀ {c : ClExpr F},
      simdLower S.inputDtype p ir d = .ok c → VecCode varTys valTys c (clVecType d) rounds)
    (hj : d = j ∨ j = .f64) (hty : S.ExprTy (liftTo ir d j) j t) (ht : t ∈ laneTys j)
    (hc : simdLower S.inputDtype p (liftTo ir d j) j = .ok c) :
    VecCode varTys valTys c (clVecType j) rounds := by
  by_cases hdj : d = j
  · subst hdj
    rw [liftTo_self] at hty hc
    exact ih hty ht hc
  · obtain rfl := hj.resolve_left hdj
    cases d with
    | f64 => exact absurd rfl hdj
    | i64 =>
      rw [liftTo_i64_f64] at hty hc
      simp only [simdLower, Except.bind_eq_ok] at hc
      obtain ⟨v, hv, hc⟩ := hc
      cases hc
      cases hty with
      | castToF64 he ht' =>
        exact (ih he ht' hv).one (fun h => by simp [ClExpr.verify, h])
          fun h hvty => ⟨by simp [ClExpr.verify, h, hvty, clVecType], rfl⟩

theorem Dtype.join_lifts (a b : Dtype) : (a = a.join b ∨ a.join b = .f64) ∧ (b = a.join b ∨ a.join b = .f64) := by
  cases a <;> cases b <;> simp [Dtype.join]

/-- A selection by the mask of a test. -/
theorem bitselect_vecCode {cc cy cn mask : ClExpr F} {j : Dtype} {a b b' : Bool}
    (hc : VecCode varTys valTys cc .i64x2 a) (hy : VecCode varTys valTys cy (clVecType j) b)
    (hn : VecCode varTys valTys cn (clVecType j) b') (hi64 : j = .i64 → mask = cc)
    (hf64 : j = .f64 → mask = .bitcastF64x2 cc) :
    VecCode varTys valTys (.bitselect mask cy cn) (clVecType j) (a || b || b') := by
  have hmask : VecCode varTys valTys mask (clVecType j) a := by
    cases j with
    | i64 =>
      rw [hi64 rfl]
      exact hc
    | f64 =>
      rw [hf64 rfl]
      exact hc.one (fun h => by simp [ClExpr.verify, h])
        fun h hvty => ⟨by simp [ClExpr.verify, h, hvty], rfl⟩
  rw [Bool.or_assoc]
  cases a with
  | true =>
    rw [vecCode_true] at hmask
    simp only [Bool.true_or, vecCode_true]
    simp [ClExpr.verify, hmask]
  | false =>
    refine hy.both hn (fun h => ?_) fun hvy hvn hty htn => ?_
    · rcases h with h | h <;> simp [ClExpr.verify, h]
    · simp [ClExpr.verify, ClExpr.ty, hvy, hvn, hty, htn, hmask.1, hmask.2]

/-- The vector code of a typed expression is accepted unless it converts a float to an integer. -/
theorem Accepts.vecCode {e : PyExpr F} {ir : Expr F} {d : Dtype} (h : Accepts w e ir d)
    (hw : w.Declared S) (hparam : valTys p = clVecType S.inputDtype) (hpure : isPureSimdExpr ir = true)
    {t : ClTy} (hty : S.ExprTy ir d t) (ht : t ∈ laneTys d) {c : ClExpr F}
    (hc : simdLower S.inputDtype p ir d = .ok c) :
    VecCode varTys valTys c (clVecType d) (w.roundsFloat e) := by
  induction h generalizing t c with
  | param =>
    rw [hw.input] at hc ⊢
    have hc' : c = .value p := by
      cases hin : S.inputDtype <;> rw [hin] at hc <;> cases hc <;> rfl
    subst hc'
    exact ⟨rfl, hparam⟩
  | localVar | math => cases hpure
  | bool | int | float =>
    cases hc
    exact ⟨rfl, rfl⟩
  | @unaryOp op irOp e ir d _ _ ih =>
    simp only [simdLower, Except.bind_eq_ok] at hc
    obtain ⟨v, hv, hc⟩ := hc
    cases hc
    cases hty with
    | unary he _ =>
      refine (ih hpure he ht hv).one (fun h => ?_) fun h hvty => ?_
      · cases irOp <;> cases d <;> simp [lowerUnary, ClExpr.verify, h]
      · cases irOp <;> cases d <;> simp [lowerUnary, ClExpr.verify, ClExpr.ty, h, hvty, clVecType]
  | @binOp op irOp left right l r lt rt _ _ _ _ ihl ihr =>
    simp only [simdLower, Except.bind_eq_ok] at hc
    obtain ⟨cl, hcl, cr, hcr, hc⟩ := hc
    obtain ⟨⟨hmod, hfloor, hdiv, hpow⟩, hpl, hpr⟩ := isPureSimdExpr_binOp hpure
    rw [isPure_liftTo] at hpl hpr
    cases hty with
    | binOp hl hr _ _ =>
      have hcodeL := simdLower_lifted (ihl hpl) (Dtype.join_lifts lt rt).1 hl ht hcl
      have hcodeR := simdLower_lifted (ihr hpr) (Dtype.join_lifts lt rt).2 hr ht hcr
      apply hcodeL.both hcodeR (simdBinOp_rejected hc)
      intro hvl hvr htl htr
      generalize lt.join rt = j at hc htl htr
      cases irOp with
      | add | sub | mul =>
        cases j <;> cases hc <;> simp [ClExpr.verify, ClExpr.ty, hvl, hvr, htl, htr, clVecType]
      | div => exact absurd rfl hdiv
      | floorDiv => exact absurd rfl hfloor
      | mod => exact absurd rfl hmod
      | pow => exact absurd rfl hpow
  | @compare op irOp left right l r lt rt _ hl hr ihl ihr =>
    simp only [simdLower, Except.bind_eq_ok] at hc
    obtain ⟨cl, hcl, cr, hcr, hc⟩ := hc
    cases hc
    simp only [isPureSimdExpr, Bool.and_eq_true] at hpure
    have hguess : guessSimdCmpDtype S.inputDtype (liftTo l lt (lt.join rt)) (liftTo r rt (lt.join rt)) =
        guessCmpDtype S.inputDtype S.locals (liftTo l lt (lt.join rt)) (liftTo r rt (lt.join rt)) := by
      simp only [guessSimdCmpDtype, guessCmpDtype, inspectSimdDtype_eq S.locals hpure.1,
        inspectSimdDtype_eq S.locals hpure.2]
    rw [isPure_liftTo, isPure_liftTo] at hpure
    cases hty with
    | compare hl' hr' ht' =>
      have hjoin := hl.guess_eq hw hr hl' ht'
      rw [hjoin] at hl' hr' ht'
      rw [hguess, hjoin] at hcl hcr ⊢
      have hcodeL := simdLower_lifted (ihl hpure.1) (Dtype.join_lifts lt rt).1 hl' ht' hcl
      have hcodeR := simdLower_lifted (ihr hpure.2) (Dtype.join_lifts lt rt).2 hr' ht' hcr
      refine hcodeL.both hcodeR (fun h => ?_) fun hvl hvr htl htr => ?_
      · generalize lt.join rt = j
        cases j <;> rcases h with h | h <;> simp [lowerCmpOp, ClExpr.verify, h]
      · generalize lt.join rt = j at htl htr
        cases j <;> simp [lowerCmpOp, ClExpr.verify, ClExpr.ty, hvl, hvr, htl, htr, clVecType]
  | @ifExp test body orelse ct y n tt yt nt htest _ _ iht ihy ihn =>
    simp only [simdLower, Except.bind_eq_ok] at hc
    obtain ⟨cc, hcc, cy, hcy, cn, hcn, hc⟩ := hc
    cases hc
    simp only [isPureSimdExpr, isPure_liftTo, Bool.and_eq_true] at hpure
    cases hty with
    | ifExpr hc' hs hy hn =>
      have hcodeY := simdLower_lifted (ihy hpure.1.2) (Dtype.join_lifts yt nt).1 hy ht hcy
      have hcodeN := simdLower_lifted (ihn hpure.2) (Dtype.join_lifts yt nt).2 hn ht hcn
      simp only [Walker.roundsFloat, htest.tag_eq]
      cases tt with
      | f64 =>
        -- the test is a float and lowered as an integer
        have hrejected : cc.verify varTys valTys = false :=
          htest.converted hw.input hpure.1.1 rfl hc' hs hcc
        simp only [decide_true, Bool.true_or]
        rw [vecCode_true]
        generalize yt.join nt = j
        cases j <;> simp [ClExpr.verify, hrejected]
      | i64 =>
        have hcodeC := iht hpure.1.1 hc' hs hcc
        simp only [Option.some.injEq, reduceCtorEq, decide_false, Bool.false_or]
        exact bitselect_vecCode hcodeC hcodeY hcodeN (fun h => by rw [h]) fun h => by rw [h]
  | @toInt arg a at_ ha ih =>
    cases at_ with
    | i64 =>
      rw [liftTo_self] at hpure hty hc
      simpa [Walker.roundsFloat, ha.tag_eq] using ih hpure hty ht hc
    | f64 =>
      simp only [liftTo, reduceCtorEq, if_false, castTo, simdLower, Except.bind_eq_ok] at hc
      obtain ⟨v, hv, hc⟩ := hc
      cases hc
      simp only [Walker.roundsFloat, ha.tag_eq, decide_true, Bool.and_self, Bool.true_or]
      rw [vecCode_true]
      simp [ClExpr.verify]
  | @toFloat arg a at_ ha ih =>
    rw [isPure_liftTo] at hpure
    have hcode := simdLower_lifted (ih hpure) (.inr rfl) hty ht hc
    simpa [Walker.roundsFloat] using hcode

end Vector

/-! ## Kernels -/

section Kernels
variable {S : Sem F} {cx : LowerCx} {Γ : Locals} {varTys valTys : ℕ → ClTy}

theorem laneTys_words {t : ClTy} (h : t ∈ laneTys .i64) : t ∈ [ClTy.i8, .i64, .i64x2] := by
  simp only [laneTys, List.mem_cons, List.not_mem_nil, or_false] at h
  rcases h with rfl | rfl <;> simp

theorem laneTys_floats {t : ClTy} (h : t ∈ laneTys .f64) : t ∈ [ClTy.f64, .f64x2] := by
  simp only [laneTys, List.mem_singleton] at h
  simp [h]

/-- A typed pure expression is lowered, and the verifier accepts it. -/
theorem Sem.ExprTy.lowers {e : Expr F} {d : Dtype} {t : ClTy} (h : S.ExprTy e d t)
    (hpure : isPureSimdExpr e = true) (hinput : S.inputDtype = cx.inputDtype)
    (hparam : valTys cx.param = clType cx.inputDtype) :
    ∃ c, lowerExpr cx Γ e d = .ok c ∧ c.verify varTys valTys = true ∧ c.ty varTys valTys = t := by
  have hcoerce : ∀ {c : ClExpr F} {a d : Dtype}, c.verify varTys valTys = true →
      c.ty varTys valTys = clType a → (lowerCoerce c a d).verify varTys valTys = true ∧
        (lowerCoerce c a d).ty varTys valTys = clType d := by
    intro c a d hv hty
    refine ⟨?_, lowerCoerce_ty hty⟩
    cases a <;> cases d <;> simp [lowerCoerce, ClExpr.verify, hv, hty, clType]
  induction h with
  | param => exact ⟨_, rfl, hcoerce rfl hparam⟩
  | localVar | mathCall => cases hpure
  | constI64 => exact ⟨_, rfl, hcoerce rfl rfl⟩
  | constF64 => exact ⟨_, rfl, hcoerce rfl rfl⟩
  | constBool => exact ⟨_, rfl, rfl, rfl⟩
  | @unary op e d t _ hneg ih =>
    obtain ⟨c, hc, hv, hty⟩ := ih hpure
    refine ⟨lowerUnary op c d, by simp only [lowerExpr, hc]; rfl, ?_⟩
    cases op with
    | plus => exact ⟨hv, hty⟩
    | neg =>
      cases d with
      | i64 => exact ⟨by simp [lowerUnary, ClExpr.verify, hv, hty, laneTys_words (hneg rfl)], hty⟩
      | f64 => exact ⟨by simp [lowerUnary, ClExpr.verify, hv, hty, laneTys_floats (hneg rfl)], hty⟩
  | @binOp op l r d t _ _ ht hop ihl ihr =>
    obtain ⟨⟨hmod, hfloor, hdiv, hpow⟩, hpl, hpr⟩ := isPureSimdExpr_binOp hpure
    obtain ⟨cl, hcl, hvl, htl⟩ := ihl hpl
    obtain ⟨cr, hcr, hvr, htr⟩ := ihr hpr
    have hlower : lowerExpr cx Γ (.binOp op l r) d = lowerBinOp op cl cr d := by
      simp only [lowerExpr, hcl, hcr]
      rfl
    rw [hlower]
    cases op with
    | add | sub | mul =>
      cases d with
      | i64 => exact ⟨_, rfl, by simp [ClExpr.verify, hvl, hvr, htl, htr, laneTys_words ht], htl⟩
      | f64 => exact ⟨_, rfl, by simp [ClExpr.verify, hvl, hvr, htl, htr, laneTys_floats ht], htl⟩
    | div => exact absurd rfl hdiv
    | floorDiv => exact absurd rfl hfloor
    | mod => exact absurd rfl hmod
    | pow => exact absurd rfl hpow
  | @compare op l r d t hl _ ht ihl ihr =>
    simp only [isPureSimdExpr, Bool.and_eq_true] at hpure
    obtain ⟨cl, hcl, hvl, htl⟩ := ihl hpure.1
    obtain ⟨cr, hcr, hvr, htr⟩ := ihr hpure.2
    have hguess : guessCmpDtype cx.inputDtype Γ.dtype l r = guessCmpDtype S.inputDtype S.locals l r := by
      rw [hinput]
      simp only [guessCmpDtype, ← inspectSimdDtype_eq _ hpure.1, ← inspectSimdDtype_eq _ hpure.2]
    refine ⟨lowerCmpOp op cl cr (guessCmpDtype S.inputDtype S.locals l r),
      by simp only [lowerExpr, hguess, hcl, hcr]; rfl, ?_, lowerCmpOp_ty (htl ▸ hl.scalar)⟩
    cases hd : guessCmpDtype S.inputDtype S.locals l r <;> rw [hd] at ht
    · simp [lowerCmpOp, ClExpr.verify, hvl, hvr, htl, htr, laneTys_words ht]
    · simp [lowerCmpOp, ClExpr.verify, hvl, hvr, htl, htr, laneTys_floats ht]
  | ifExpr _ hs _ _ ihc ihx ihy =>
    simp only [isPureSimdExpr, Bool.and_eq_true] at hpure
    obtain ⟨cc, hcc, hvc, htc⟩ := ihc hpure.1.1
    obtain ⟨cy, hcy, hvy, hty⟩ := ihx hpure.1.2
    obtain ⟨cn, hcn, hvn, htn⟩ := ihy hpure.2
    have hs' : _ ∈ [ClTy.i8, .i64] := hs
    exact ⟨.select cc cy cn, by simp only [lowerExpr, hcc, hcy, hcn]; rfl,
      by simp only [ClExpr.verify, hvc, hvy, hvn, htc, hty, htn, hs', decide_true, Bool.and_self], hty⟩
  | castToI64 _ ih =>
    obtain ⟨c, hc, hv, hty⟩ := ih hpure
    exact ⟨.fcvtToSint .i64 c, by simp only [lowerExpr, hc]; rfl, by simp [ClExpr.verify, hv, hty], rfl⟩
  | castToF64 _ ht ih =>
    obtain ⟨c, hc, hv, hty⟩ := ih hpure
    have ht' : _ ∈ [ClTy.i8, .i64] := ht
    exact ⟨.fcvtFromSint .f64 c, by simp only [lowerExpr, hc]; rfl,
      by simp only [ClExpr.verify, hv, hty, ht', decide_true, Bool.and_self, Bool.true_or], rfl⟩

/-- The function with the vector loop passes the verifier when the vector code does. -/
theorem compileSimd_ok_iff {k : Kernel F} {value : Expr F} {c : ClExpr F}
    (hsr : k.singleReturn = some value) (hpure : isPureSimdExpr value = true)
    (hinput : S.inputDtype = k.inputDtype)
    (hty : S.ExprTy value k.outputDtype (clType k.outputDtype))
    (hc : simdLower k.inputDtype 4 value k.outputDtype = .ok c) :
    (∃ g, compileSimd k = .ok g) ↔ c.verify (tailStart k).varTy (tailStart k).valTy = true := by
  obtain ⟨c', hlower, hv, hty'⟩ : ∃ c', lowerExpr (tailCx k) (tailStart k).locals value k.outputDtype = .ok c' ∧
      c'.verify (tailStart k).varTy (tailStart k).valTy = true ∧
      c'.ty (tailStart k).varTy (tailStart k).valTy = clType k.outputDtype :=
    hty.lowers hpure hinput rfl
  have hdef : defVar (tailStart k) resultVar c' = .ok (.defVar resultVar c') := by
    unfold defVar
    exact if_pos hty'
  have hbody : lowerBody (tailCx k) [] k.body (tailStart k) =
      .ok ([.defVar resultVar c', .jump 5], (tailStart k).setTerminated true) := by
    have hstmt : lowerStmt (tailCx k) [] (.ret value) (tailStart k) =
        .ok ([.defVar resultVar c', .jump 5], (tailStart k).setTerminated true) := by
      have hout : (tailCx k).outputDtype = k.outputDtype := rfl
      simp only [lowerStmt, hout, hlower, bind, Except.bind]
      rw [show (tailCx k).resultVar = resultVar from rfl, hdef]
      rfl
    rw [singleReturn_body hsr]
    simp only [lowerBody, hstmt]
    rfl
  have hall : (simdMainLoop k c ++ tailPrologue k ++ [Item.defVar resultVar c', .jump 5] ++
      tailEpilogue).all (Item.verify (tailStart k).varTy (tailStart k).valTy) =
        c.verify (tailStart k).varTy (tailStart k).valTy := by
    have hresult : (tailStart k).varTy resultVar = clType k.outputDtype := rfl
    simp only [simdMainLoop, tailPrologue, tailEpilogue, List.cons_append, List.nil_append,
      List.all_cons, List.all_nil, Item.verify, bumpIndex, slotExpr, ClExpr.verify, ClExpr.ty, hv, hty',
      hresult]
    simp [LowerState.varTy, LowerState.valTy, tailStart, iVar]
  have hcompile : compileSimd k = defineFunction (simdMainLoop k c ++ tailPrologue k ++
      [Item.defVar resultVar c', .jump 5] ++ tailEpilogue) ((tailStart k).setTerminated true) := by
    simp only [compileSimd, hsr, hc, hbody]
    rfl
  have hdefine : ∀ code : List (Item F),
      (∃ g, defineFunction code ((tailStart k).setTerminated true) = .ok g) ↔
        code.all (Item.verify (tailStart k).varTy (tailStart k).valTy) = true := by
    intro code
    constructor
    · rintro ⟨g, hg⟩
      obtain ⟨-, -, -, -, hverify⟩ := defineFunction_eq_ok hg
      exact List.all_eq_true.mpr hverify
    · intro h
      exact ⟨_, if_pos h⟩
  rw [hcompile, hdefine, hall]

/-- The expression that a function of a single `return` returns. -/
def FnNode.returned : FnNode F → Option (PyExpr F)
  | .lambda _ body => some body
  | .functionDef _ (.ret value :: _) => value
  | .functionDef _ (_ :: .ret value :: _) => value
  | .functionDef _ _ => none

theorem AcceptsBody.returned {w w' : Walker} {body : List (PyStmt F)} {value : Expr F}
    (h : AcceptsBody w true body [.ret value] true w') (params : List String) :
    ∃ e d, (FnNode.functionDef params body).returned = some e ∧ Accepts w e value d ∧
      w'.outputDtype = some d := by
  cases h with
  | @docstring _ _ stmt _ _ _ hdoc hrest =>
    cases hrest with
    | last hstmt =>
      cases hstmt with
      | ret hvalue hret =>
        obtain ⟨rfl, -⟩ := Walker.recordReturn_eq_ok hret
        refine ⟨_, _, ?_, hvalue, rfl⟩
        cases stmt with
        | exprStmt => rfl
        | _ => simp [PyStmt.isDocstring] at hdoc
    | cons hstmt _ => cases hstmt
  | last hstmt =>
    cases hstmt with
    | ret hvalue hret =>
      obtain ⟨rfl, -⟩ := Walker.recordReturn_eq_ok hret
      exact ⟨_, _, rfl, hvalue, rfl⟩
  | cons hstmt _ => cases hstmt

/-- The function of a vectorizable kernel returns one expression. -/
theorem walkFunction_returned {d : Dtype} {node : FnNode F} {k : Kernel F} {param : String}
    (hwalk : walkFunction d node = some k) (hparam : node.params = [param]) {value : Expr F}
    (hsr : k.singleReturn = some value) :
    ∃ e, node.returned = some e ∧ Accepts (.init param d) e value k.outputDtype := by
  obtain ⟨param', w', hparams, hbody, rfl, hout⟩ := walkFunction_accepts hwalk
  obtain rfl : param' = param := by simpa [hparams] using hparam
  rw [singleReturn_body hsr] at hbody
  cases node with
  | lambda params body =>
    obtain ⟨e, d, he, hvalue, hd⟩ := hbody.returned params
    rw [hd, Option.getD_some] at hout
    cases he
    exact ⟨_, rfl, hout ▸ hvalue⟩
  | functionDef params body =>
    obtain ⟨e, d, he, hvalue, hd⟩ := hbody.returned params
    rw [hd, Option.getD_some] at hout
    exact ⟨e, he, hout ▸ hvalue⟩

theorem compileScalar_bodyTyped {fl : FloatOps F} {k : Kernel F} {g : Compiled F}
    (h : compileScalar fl k = .ok g) (strict : Bool) (x : Val F) :
    (k.sem fl strict x).bodyTyped k.body := by
  simp only [compileScalar, Except.bind_eq_ok] at h
  obtain ⟨⟨body, s⟩, hbody, hdef⟩ := h
  obtain ⟨-, -, -, -, hverify⟩ := defineFunction_eq_ok hdef
  exact bodyTyped_of_verified hbody (scalarStart_ok k) rfl rfl rfl rfl rfl rfl
    (fun item hi => hverify item (by simp [hi])) strict x

/-- **Vectorization loses a function** exactly when its code converts a float to an integer:
the vector lowering of a vectorizable kernel is always complete, and of those that the scalar
path compiles, the verifier rejects just these. -/
theorem vectorized_iff (fl : FloatOps F) {d : Dtype} {node : FnNode F} {k : Kernel F} {param : String}
    (hwalk : walkFunction d node = some k) (hparam : node.params = [param])
    (hvec : k.isVectorizablePhase1 = true) {g : Compiled F} (hscalar : compileScalar fl k = .ok g) :
    ∃ e value, node.returned = some e ∧ k.singleReturn = some value ∧
      (∃ c, simdLower k.inputDtype 4 value k.outputDtype = .ok c) ∧
      ((∃ g', compile fl k = .ok g') ↔ (Walker.init param d).roundsFloat e = false) := by
  obtain ⟨value, hsr, hpure⟩ := singleReturn_of_vectorizable hvec
  obtain ⟨e, he, haccepts⟩ := walkFunction_returned hwalk hparam hsr
  obtain ⟨c, hc⟩ := simdLower_pure k.inputDtype 4 hpure k.outputDtype
  refine ⟨e, value, he, hsr, ⟨c, hc⟩, ?_⟩
  have hinput := walkFunction_inputDtype hwalk
  let S := k.sem fl false (.i64 0)
  have hty : S.ExprTy value k.outputDtype (clType k.outputDtype) := by
    have htyped := compileScalar_bodyTyped hscalar false (.i64 0)
    rw [singleReturn_body hsr] at htyped
    exact htyped.1
  have hdeclared : (Walker.init param d).Declared S :=
    ⟨hinput.symm, fun name d h => by simp [Walker.init] at h⟩
  have hmem : clType k.outputDtype ∈ laneTys k.outputDtype := by
    cases k.outputDtype <;> simp [clType, laneTys]
  have hcode : VecCode (tailStart k).varTy (tailStart k).valTy c (clVecType k.outputDtype)
      ((Walker.init param d).roundsFloat e) :=
    haccepts.vecCode hdeclared (p := 4) rfl hpure hty hmem hc
  rw [compile, if_pos hvec, compileSimd_ok_iff hsr hpure rfl hty hc]
  cases hr : (Walker.init param d).roundsFloat e with
  | true =>
    rw [hr, vecCode_true] at hcode
    simp [hcode]
  | false =>
    rw [hr, vecCode_false] at hcode
    simp [hcode.1]

end Kernels

/-- No float is rounded in it, so it is not lost. -/
theorem vectorized_doubleAboveOne : ∃ g', compile pyHostFloats doubleAboveOneKernel = .ok g' := by
  obtain ⟨g, hg⟩ : ∃ g, compileScalar pyHostFloats doubleAboveOneKernel = .ok g := ⟨_, rfl⟩
  obtain ⟨e, value, he, -, -, hiff⟩ := vectorized_iff pyHostFloats
    (show walkFunction .i64 doubleAboveOne = some doubleAboveOneKernel from rfl) rfl rfl hg
  cases he
  exact hiff.mpr rfl

/-- `lambda x: x + int(x * 0.5)` -/
def plusHalf : FnNode (BitVec 64) :=
  .lambda ["x"] (.binOp (.name "x") .add (.call (.name "int")
    [.binOp (.name "x") .mult (.constant (.float 0x3FE0000000000000))] []))

/-- Vectors have no conversion to integers. -/
theorem plusHalf_lost : ∃ k g, walkFunction .i64 plusHalf = some k ∧ k.isVectorizablePhase1 = true ∧
    compileScalar pyHostFloats k = .ok g ∧ compile pyHostFloats k = .error .verifier :=
  ⟨_, _, rfl, rfl, rfl, rfl⟩

end Gilmap
