import Gilmap.Jit.Lanes
import Gilmap.Jit.TypedRuns
import Gilmap.Python.TryCompile

/-! # Where the vector code computes what the scalar code computes

The scalar code represents a true comparison or constant as 1, the vector code as a mask
of ones. Both agree as long as a true boolean is only tested, and only booleans, 0 and -1
are tested.
-/
namespace Gilmap
open Library
variable {F : Type}

/-- How a lane represents the value that the scalar code has computed. -/
inductive Reading
  /-- by itself; false is the number zero -/
  | number
  /-- a true boolean, by the all-ones mask -/
  | truth
  deriving DecidableEq, Repr

def Reading.lane : Reading → Val F → Val F
  | .truth, _ => .i64 (maskOf true)
  | .number, .i8 _ => .i64 0
  | .number, v => v

/-- The outcome of a comparison. -/
def cmpHolds (fl : FloatOps F) (op : CmpOp) (l r : Val F) (dtype : Dtype) : Option Bool :=
  (evalCmpOp fl op l r dtype >>= Val.truthy).toOption

/-- How the lane of an expression represents its value; `none` when a true boolean is used
as a number or a number other than 0 and -1 as a test. A comparison may see a true boolean
when reading it as -1 does not change the outcome. -/
def Sem.reading (S : Sem F) (ρ : Env F) : Expr F → Dtype → Option Reading
  | .param, _ | .constI64 _, _ | .constF64 _, _ => some .number
  | .constBool value, _ => some (if value then .truth else .number)
  | .unary .plus operand, expected => S.reading ρ operand expected
  | .unary .neg operand, expected =>
    if S.reading ρ operand expected = some .number then some .number else none
  | .binOp _ left right, expected =>
    if S.reading ρ left expected = some .number ∧ S.reading ρ right expected = some .number then
      some .number
    else none
  | .compare op left right, _ =>
    let cmpDtype := guessCmpDtype S.inputDtype S.locals left right
    match S.reading ρ left cmpDtype, S.reading ρ right cmpDtype, S.eval ρ left cmpDtype,
        S.eval ρ right cmpDtype with
    | some a, some b, .ok l, .ok r =>
      match cmpHolds S.fl op l r cmpDtype with
      | some holds =>
        if cmpHolds S.fl op (a.lane l) (b.lane r) cmpDtype = some holds then
          some (if holds then .truth else .number)
        else none
      | none => none
    | _, _, _, _ => none
  | .ifExpr test yes no, expected =>
    match S.reading ρ test .i64, S.eval ρ test .i64 with
    | some a, .ok t =>
      match a.lane t with
      | .i64 mask =>
        if mask = maskOf true then S.reading ρ yes expected
        else if mask = 0 then S.reading ρ no expected
        else none
      | _ => none
    | _, _ => none
  | .castToF64 value, _ => if S.reading ρ value .i64 = some .number then some .number else none
  | .castToI64 _, _ | .localVar _, _ | .mathCall _ _, _ => none

/-- `v` is the lane of the scalar value `s`. -/
inductive Reads : Reading → Val F → Val F → Prop
  | i64 (a : BitVec 64) : Reads .number (.i64 a) (.i64 a)
  | f64 (x : F) : Reads .number (.f64 x) (.f64 x)
  | falseFlag : Reads .number (.i8 0) (.i64 0)
  | trueFlag : Reads .truth (.i8 1) (.i64 (maskOf true))
  | trueConst : Reads .truth (.i64 1) (.i64 (maskOf true))

theorem Reads.lane_eq {a : Reading} {s v : Val F} (h : Reads a s v) : a.lane s = v := by
  cases h <;> rfl

/-- A result of the kernel keeps its type in the lane. -/
theorem Reads.ty_eq {a : Reading} {s v : Val F} {d : Dtype} (h : Reads a s v)
    (hs : s.ty = clType d) : v.ty = clType d := by
  cases h with
  | i64 | f64 => exact hs
  | trueConst => exact hs
  | falseFlag | trueFlag => cases d <;> cases hs

/-- A result of the kernel is the same in the lane unless it is a true boolean. -/
theorem Reads.eq_iff {a : Reading} {s v : Val F} {d : Dtype} (h : Reads a s v)
    (hs : s.ty = clType d) : v = s ↔ a = .number := by
  cases h with
  | i64 | f64 => simp
  | trueConst => simp [maskOf]
  | falseFlag | trueFlag => cases d <;> cases hs

/-! ## One lane against the scalar code -/

section OneLane
variable {fl : FloatOps F} {s t v w s' v' : Val F} {a : Reading}

theorem reads_coerce {actual expected : Dtype} (hty : s.ty = clType actual)
    (hs : coerceVal fl s actual expected = .ok s') (hv : coerceVal fl s actual expected = .ok v') :
    Reads .number s' v' := by
  rw [hs] at hv
  cases hv
  cases actual with
  | i64 =>
    obtain ⟨b, rfl⟩ := eq_i64_of_ty hty
    cases expected <;> cases hs
    · exact .i64 b
    · exact .f64 _
  | f64 =>
    obtain ⟨x, rfl⟩ := eq_f64_of_ty hty
    cases expected with
    | f64 => cases hs; exact .f64 x
    | i64 =>
      cases hi : fl.toInt x <;>
        simp [coerceVal, Val.fcvtToSint, hi, Except.mapError, Except.map] at hs
      subst hs
      exact .i64 _

theorem reads_neg {d : Dtype} (h : Reads .number s v) (hs : evalUnary fl .neg s d = .ok s')
    (hv : evalUnary fl .neg v d = .ok v') : Reads .number s' v' := by
  cases h <;> cases d <;> cases hs <;> cases hv
  · exact .i64 _
  · exact .f64 _
  · exact .falseFlag

theorem reads_intBin {op : IntBin} (h : Reads .number s v) (h' : Reads .number t w)
    (hs : s.intBin op t = .ok s') (hv : v.intBin op w = .ok v') : Reads .number s' v' := by
  cases h <;> cases h' <;> cases hs <;> cases hv
  · exact .i64 _
  · cases op <;> exact .falseFlag

theorem reads_floatBin {op : FloatBin} (h : Reads .number s v) (h' : Reads .number t w)
    (hs : s.floatBin fl op t = .ok s') (hv : v.floatBin fl op w = .ok v') : Reads .number s' v' := by
  cases h <;> cases h' <;> cases hs
  cases hv
  exact .f64 _

theorem reads_fromSint (h : Reads .number s v) (hs : s.fcvtFromSint fl = .ok s')
    (hv : v.fcvtFromSint fl = .ok v') : Reads .number s' v' := by
  cases h <;> cases hs <;> cases hv
  · exact .f64 _
  · exact .f64 _

theorem cmpHolds_eq_some {op : CmpOp} {d : Dtype} {l r : Val F} {holds : Bool}
    (h : cmpHolds fl op l r d = some holds) :
    ∃ flag, evalCmpOp fl op l r d = .ok flag ∧ flag.truthy = .ok holds := by
  unfold cmpHolds at h
  cases hc : evalCmpOp fl op l r d with
  | error f => simp [hc, bind, Except.bind, Except.toOption] at h
  | ok flag =>
    refine ⟨flag, rfl, ?_⟩
    rw [hc] at h
    cases ht : flag.truthy with
    | error f => simp [ht, bind, Except.bind, Except.toOption] at h
    | ok b =>
      simp only [ht, bind, Except.bind, Except.toOption, Option.some.injEq] at h
      rw [h]

/-- A scalar comparison writes 1 or 0. -/
theorem evalCmpOp_flag {op : CmpOp} {d : Dtype} {l r : Val F} {holds : Bool}
    (hc : evalCmpOp fl op l r d = .ok s) (ht : s.truthy = .ok holds) : s = .i8 (flagOf holds) := by
  have hflag : ∀ b, (Val.i8 (flagOf b) : Val F).truthy = .ok holds →
      (Val.i8 (flagOf b) : Val F) = .i8 (flagOf holds) := by
    intro b hb
    cases b <;> cases holds <;> first | rfl | simp [Val.truthy, flagOf] at hb
  cases d <;> cases l <;> cases r <;> cases hc
  all_goals first
    | exact hflag _ ht
    | simp [Val.truthy] at ht

/-- A comparison with the same outcome in the lane. -/
theorem reads_compare {op : CmpOp} {d : Dtype} {l r l' r' : Val F} {holds : Bool}
    (hs : evalCmpOp fl op l r d = .ok s') (hv : laneCompare fl op l' r' d = .ok v')
    (h : cmpHolds fl op l r d = some holds) (h' : cmpHolds fl op l' r' d = some holds) :
    Reads (if holds then .truth else .number) s' v' := by
  obtain ⟨flag, hflag, ht⟩ := cmpHolds_eq_some h
  obtain ⟨mask, hmask, ht'⟩ := cmpHolds_eq_some h'
  rw [hs] at hflag
  cases hflag
  rw [evalCmpOp_flag hs ht]
  simp only [laneCompare, hmask, ht', bind, Except.bind] at hv
  cases hv
  cases holds
  · exact .falseFlag
  · exact .trueFlag

/-- A lane that tests a mask takes the arm that the scalar code takes. -/
theorem laneSelect_mask (hfl : fl.BitExact) {b : Bool} {x y : Val F}
    (h : laneSelect fl (.i64 (maskOf b)) x y = .ok v) : v = if b then x else y := by
  cases x <;> cases y <;> simp only [laneSelect, reduceCtorEq] at h <;> cases h
  · rw [blend_maskOf]
    cases b <;> rfl
  · rw [hfl.toBits_ofBits, blend_maskOf]
    cases b <;> simp only [Bool.false_eq_true, if_false, if_true, hfl.ofBits_toBits]

/-- What the scalar code tests when the lane tests a mask. -/
theorem Reads.truthy {b : Bool} (h : Reads a s (.i64 (maskOf b))) : s.truthy = .ok b := by
  generalize hm : (Val.i64 (maskOf b) : Val F) = v at h
  cases h with
  | i64 c =>
    cases hm
    cases b <;> rfl
  | f64 => cases hm
  | falseFlag =>
    cases b
    · rfl
    · simp [maskOf] at hm
  | trueFlag | trueConst =>
    cases b
    · simp [maskOf] at hm
    · rfl

end OneLane

/-! ## Expressions -/

section Expressions
variable {S : Sem F} {ρ : Env F}

theorem inspectSimdDtype_eq (locals : String → Option Dtype) {e : Expr F} (h : isPureSimdExpr e = true)
    (d : Dtype) : inspectSimdDtype d e = inspectDtype d locals e := by
  induction e with
  | localVar | mathCall => simp [isPureSimdExpr] at h
  | binOp op l r ihl ihr =>
    obtain ⟨-, hl, hr⟩ := isPureSimdExpr_binOp h
    simp only [inspectSimdDtype, inspectDtype, ihl hl, ihr hr]
  | compare op l r ihl ihr =>
    simp only [isPureSimdExpr, Bool.and_eq_true] at h
    simp only [inspectSimdDtype, inspectDtype, ihl h.1, ihr h.2]
  | unary op e ih =>
    simp only [inspectSimdDtype, inspectDtype]
    exact ih h
  | ifExpr c x y _ ihx ihy =>
    simp only [isPureSimdExpr, Bool.and_eq_true] at h
    simp only [inspectSimdDtype, inspectDtype, ihx h.1.2, ihy h.2]
  | param | constI64 | constF64 | constBool | castToI64 | castToF64 => rfl

theorem guessSimdCmpDtype_eq (locals : String → Option Dtype) {l r : Expr F}
    (hl : isPureSimdExpr l = true) (hr : isPureSimdExpr r = true) (d : Dtype) :
    guessSimdCmpDtype d l r = guessCmpDtype d locals l r := by
  simp only [guessSimdCmpDtype, guessCmpDtype, inspectSimdDtype_eq locals hl,
    inspectSimdDtype_eq locals hr]

/-- The lane of an expression is the one that its reading says. -/
theorem reading_sound (hfl : S.fl.BitExact) (hparam : S.param.ty = clType S.inputDtype) {e : Expr F}
    {d : Dtype} (hpure : isPureSimdExpr e = true) {s v : Val F} {a : Reading}
    (hs : S.eval ρ e d = .ok s) (hv : S.lane e d = .ok v) (ha : S.reading ρ e d = some a) :
    Reads a s v := by
  induction e generalizing d s v a with
  | param =>
    cases ha
    exact reads_coerce hparam hs hv
  | constI64 value =>
    cases ha
    exact reads_coerce rfl hs hv
  | constF64 value =>
    cases ha
    exact reads_coerce rfl hs hv
  | constBool value =>
    cases ha
    cases hs
    cases hv
    cases value
    · exact .i64 0
    · exact .trueConst
  | unary op e ih =>
    simp only [Sem.eval, Except.bind_eq_ok] at hs
    simp only [Sem.lane, Except.bind_eq_ok] at hv
    obtain ⟨s₀, hs₀, hs⟩ := hs
    obtain ⟨v₀, hv₀, hv⟩ := hv
    cases op with
    | plus =>
      simp only [Sem.reading] at ha
      have h := ih hpure hs₀ hv₀ ha
      cases d <;> cases hs <;> cases hv <;> exact h
    | neg =>
      simp only [Sem.reading] at ha
      split at ha
      · cases ha
        exact reads_neg (ih hpure hs₀ hv₀ ‹_›) hs hv
      · cases ha
  | binOp op l r ihl ihr =>
    obtain ⟨hop, hpl, hpr⟩ := isPureSimdExpr_binOp hpure
    simp only [Sem.eval, Except.bind_eq_ok] at hs
    simp only [Sem.lane, Except.bind_eq_ok] at hv
    obtain ⟨s₁, hs₁, s₂, hs₂, hs⟩ := hs
    obtain ⟨v₁, hv₁, v₂, hv₂, hv⟩ := hv
    simp only [Sem.reading] at ha
    split at ha
    · rename_i hab
      cases ha
      have h₁ := ihl hpl hs₁ hv₁ hab.1
      have h₂ := ihr hpr hs₂ hv₂ hab.2
      cases op with
      | add | sub | mul =>
        cases d
        · exact reads_intBin h₁ h₂ hs hv
        · exact reads_floatBin h₁ h₂ hs hv
      | div | floorDiv | mod | pow => simp at hop
    · cases ha
  | compare op l r ihl ihr =>
    simp only [isPureSimdExpr, Bool.and_eq_true] at hpure
    simp only [Sem.eval, Except.bind_eq_ok] at hs
    simp only [Sem.lane, guessSimdCmpDtype_eq S.locals hpure.1 hpure.2, Except.bind_eq_ok] at hv
    obtain ⟨s₁, hs₁, s₂, hs₂, hs⟩ := hs
    obtain ⟨v₁, hv₁, v₂, hv₂, hv⟩ := hv
    simp only [Sem.reading, hs₁, hs₂] at ha
    cases hal : S.reading ρ l (guessCmpDtype S.inputDtype S.locals l r) with
    | none => simp [hal] at ha
    | some al =>
      cases har : S.reading ρ r (guessCmpDtype S.inputDtype S.locals l r) with
      | none => simp [hal, har] at ha
      | some ar =>
        simp only [hal, har] at ha
        split at ha
        · rename_i holds hholds
          split at ha
          · rename_i hlane
            cases ha
            rw [(ihl hpure.1 hs₁ hv₁ hal).lane_eq, (ihr hpure.2 hs₂ hv₂ har).lane_eq] at hlane
            exact reads_compare hs hv hholds hlane
          · cases ha
        · cases ha
  | ifExpr t x y iht ihx ihy =>
    simp only [isPureSimdExpr, Bool.and_eq_true] at hpure
    simp only [Sem.eval, Except.bind_eq_ok] at hs
    simp only [Sem.lane, Except.bind_eq_ok] at hv
    obtain ⟨s₀, hs₀, s₁, hs₁, s₂, hs₂, hs⟩ := hs
    obtain ⟨v₀, hv₀, v₁, hv₁, v₂, hv₂, hv⟩ := hv
    simp only [Sem.reading, hs₀] at ha
    cases hat : S.reading ρ t .i64 with
    | none => simp [hat] at ha
    | some at' =>
      have ht := iht hpure.1.1 hs₀ hv₀ hat
      simp only [hat, ht.lane_eq] at ha
      have harm : ∀ b, v₀ = .i64 (maskOf b) → s = (if b then s₁ else s₂) ∧ v = if b then v₁ else v₂ := by
        rintro b rfl
        simp only [Val.select, ht.truthy, Except.map] at hs
        cases hs
        exact ⟨rfl, laneSelect_mask hfl hv⟩
      cases v₀ with
      | i64 mask =>
        simp only at ha
        split at ha
        · rename_i hm
          obtain ⟨rfl, rfl⟩ := harm true (by rw [hm])
          exact ihx hpure.1.2 hs₁ hv₁ ha
        · split at ha
          · rename_i hm
            obtain ⟨rfl, rfl⟩ := harm false (by rw [hm]; rfl)
            exact ihy hpure.2 hs₂ hv₂ ha
          · cases ha
      | i8 | f64 | i64x2 | f64x2 => cases ha
  | castToF64 e ih =>
    simp only [Sem.eval, Except.bind_eq_ok] at hs
    simp only [Sem.lane, Except.bind_eq_ok] at hv
    obtain ⟨s₀, hs₀, hs⟩ := hs
    obtain ⟨v₀, hv₀, hv⟩ := hv
    simp only [Sem.reading] at ha
    split at ha
    · cases ha
      exact reads_fromSint (ih hpure hs₀ hv₀ ‹_›) hs hv
    · cases ha
  | castToI64 => cases ha
  | localVar | mathCall => simp [isPureSimdExpr] at hpure

/-- Without locals the environment does not matter. -/
theorem eval_congr {e : Expr F} (hpure : isPureSimdExpr e = true) (ρ ρ' : Env F) (d : Dtype) :
    S.eval ρ e d = S.eval ρ' e d := by
  induction e generalizing d with
  | param | constI64 | constF64 | constBool => rfl
  | localVar | mathCall => simp [isPureSimdExpr] at hpure
  | unary op e ih => simp only [Sem.eval, ih hpure]
  | castToI64 e ih | castToF64 e ih => simp only [Sem.eval, ih hpure]
  | binOp op l r ihl ihr =>
    obtain ⟨-, hl, hr⟩ := isPureSimdExpr_binOp hpure
    simp only [Sem.eval, ihl hl, ihr hr]
  | compare op l r ihl ihr =>
    simp only [isPureSimdExpr, Bool.and_eq_true] at hpure
    simp only [Sem.eval, ihl hpure.1, ihr hpure.2]
  | ifExpr t x y iht ihx ihy =>
    simp only [isPureSimdExpr, Bool.and_eq_true] at hpure
    simp only [Sem.eval, iht hpure.1.1, ihx hpure.1.2, ihy hpure.2]

theorem simdCoerce_verify {varTys valTys : ℕ → ClTy} {c : ClExpr F} {actual expected : Dtype}
    (h : (simdCoerce c actual expected).verify varTys valTys) : expected = .f64 ∨ actual = .i64 := by
  cases actual <;> cases expected <;> simp [simdCoerce, ClExpr.verify] at h ⊢

/-- What the verifier lets pass on vectors never traps. -/
theorem untrapped_eval {p : ℕ} {varTys valTys : ℕ → ClTy} {e : Expr F} {d : Dtype} {c : ClExpr F}
    (hpure : isPureSimdExpr e = true) (hc : simdLower S.inputDtype p e d = .ok c)
    (hv : c.verify varTys valTys) : Untrapped (S.eval ρ e d) := by
  induction e generalizing d c with
  | param | constI64 | constF64 =>
    cases hc
    exact untrapped_coerceVal _ (simdCoerce_verify hv)
  | constBool value => exact untrapped_ok _
  | unary op e ih =>
    simp only [simdLower, Except.bind_eq_ok] at hc
    obtain ⟨c₀, hc₀, he⟩ := hc
    cases he
    apply (ih hpure hc₀ (lowerUnary_operand hv)).bind
    intro v
    cases op <;> cases d <;> cases v <;> simp [Untrapped, evalUnary, Val.ineg, Val.fneg]
  | binOp op l r ihl ihr =>
    obtain ⟨hop, hpl, hpr⟩ := isPureSimdExpr_binOp hpure
    simp only [simdLower, Except.bind_eq_ok] at hc
    obtain ⟨cl, hcl, cr, hcr, hc⟩ := hc
    obtain ⟨hvl, hvr⟩ := simdBinOp_operands hop hc hv
    refine (ihl hpl hcl hvl).bind fun v => (ihr hpr hcr hvr).bind fun w => ?_
    rcases simdBinOp_eq_ok hop hc with ⟨iop, -, heq⟩ | ⟨fop, -, heq⟩ <;> rw [heq] <;>
      cases v <;> cases w <;> simp [Untrapped, Val.intBin, Val.floatBin]
  | compare op l r ihl ihr =>
    simp only [isPureSimdExpr, Bool.and_eq_true] at hpure
    simp only [simdLower, guessSimdCmpDtype_eq S.locals hpure.1 hpure.2, Except.bind_eq_ok] at hc
    obtain ⟨cl, hcl, cr, hcr, hc⟩ := hc
    cases hc
    obtain ⟨hvl, hvr⟩ := lowerCmpOp_operands hv
    refine (ihl hpure.1 hcl hvl).bind fun v => (ihr hpure.2 hcr hvr).bind fun w => ?_
    generalize guessCmpDtype S.inputDtype S.locals l r = d'
    cases d' <;> cases v <;> cases w <;> simp [Untrapped, evalCmpOp, Val.icmp, Val.fcmp]
  | ifExpr t x y iht ihx ihy =>
    simp only [isPureSimdExpr, Bool.and_eq_true] at hpure
    simp only [simdLower, Except.bind_eq_ok] at hc
    obtain ⟨ct, hct, cx, hcx, cy, hcy, hc⟩ := hc
    cases hc
    obtain ⟨hvt, hvx, hvy⟩ := bitselect_operands (c := ct) (by cases d <;> simp) hv
    refine (iht hpure.1.1 hct hvt).bind fun u => (ihx hpure.1.2 hcx hvx).bind fun v =>
      (ihy hpure.2 hcy hvy).bind fun w => ?_
    cases u <;> simp [Untrapped, Val.select, Val.truthy, Except.map]
  | castToF64 e ih =>
    simp only [simdLower, Except.bind_eq_ok] at hc
    obtain ⟨c₀, hc₀, he⟩ := hc
    cases he
    simp only [ClExpr.verify, Bool.and_eq_true] at hv
    apply (ih hpure hc₀ hv.1).bind
    intro v
    cases v <;> simp [Untrapped, Val.fcvtFromSint]
  | castToI64 e ih =>
    simp only [simdLower, Except.bind_eq_ok] at hc
    obtain ⟨c₀, hc₀, he⟩ := hc
    cases he
    simp [ClExpr.verify] at hv
  | localVar | mathCall => simp [isPureSimdExpr] at hpure

end Expressions

/-! ## Whole kernels -/

section Kernels
variable {fl : FloatOps F} {k : Kernel F} {g g' : Compiled F} {value : Expr F}
  {inPtr outPtr len : Addr} {m : Mem F} {x y : Val F}

/-- The expression of a compiled single `return` has the output type, or traps. -/
theorem compileScalar_eval_hasTy (hc : compileScalar fl k = .ok g)
    (hsr : k.singleReturn = some value) (hx : x.ty = clType k.inputDtype) :
    HasTy (clType k.outputDtype) ((k.sem fl false x).eval Env.empty value k.outputDtype) := by
  obtain ⟨-, -, bodyCode, final, E⟩ := compileScalar_loop hc
  have hlowered := E.lowered
  rw [singleReturn_body hsr] at hlowered
  obtain ⟨c, s, c', hstmt, -, hcode⟩ := lowerBody_cons rfl hlowered
  obtain ⟨v, hv, rfl, -, -⟩ := lowerStmt_ret hstmt
  obtain ⟨r, hload⟩ := E.load
  have hmem : ∀ item ∈ bodyCode, item ∈ g.code := fun item hi =>
    (codeAfter_suffix 2 g.code).subset (by rw [hload]; simp [hi])
  have hdef := E.verified _ (hmem (.defVar resultVar v) (by rw [hcode]; simp [scalarCx]))
  have hparam : g.valTy 3 = clType k.inputDtype := by
    have hitem := E.verified (.load 3 (clType k.inputDtype) (slotExpr 0))
      ((codeAfter_suffix 2 g.code).subset (by rw [hload]; simp [scalarCx]))
    simp only [Item.verify, Bool.and_eq_true, decide_eq_true_eq] at hitem
    exact hitem.2.symm
  simp only [Item.verify, Bool.and_eq_true, decide_eq_true_eq] at hdef
  let vals : ℕ → Val F := Function.update (fun j => Val.zeroOf fl (g.valTy j)) 3 x
  have hvals : ∀ j, (vals j).ty = g.valTy j := by
    intro j
    by_cases hj : j = 3
    · subst hj
      simp [vals, hx, hparam]
    · simp [vals, Function.update_of_ne hj, zeroOf_ty]
  have hty := ClExpr.eval_hasTy fl (fun j => zeroOf_ty fl (g.varTy j)) hvals hdef.1
  rw [hdef.2, E.resultTy] at hty
  have heval : v.eval fl (fun j => Val.zeroOf fl (g.varTy j)) vals =
      (k.sem fl false x).eval Env.empty value k.outputDtype :=
    eval_lowerExpr (S := k.sem fl false x) rfl (by simp [vals, scalarCx, Kernel.sem])
      (by simp [scalarStart]) hv
  rwa [heval] at hty

/-- The reading of the element `x`'s result in the vector code. -/
def Kernel.reading (fl : FloatOps F) (k : Kernel F) (x : Val F) : Option Reading :=
  match k.singleReturn with
  | some value => (k.sem fl false x).reading Env.empty value k.outputDtype
  | none => none

/-- Both functions return and leave the same memory. -/
def SameOutput (fl : FloatOps F) (g g' : Compiled F) (inPtr outPtr len : Addr) (m : Mem F) : Prop :=
  ∃ n n' tr tr' l l' m', Takes (clifNext fl g.code) n (g.enter fl inPtr outPtr len, m) tr (l, m') ∧
    l.ctl = .returned ∧
    Takes (clifNext fl g'.code) n' (g'.enter fl inPtr outPtr len, m) tr' (l', m') ∧ l'.ctl = .returned

/-- Two whole passes leave the same memory exactly when they give the same values. -/
theorem FullPass.sameOutput_iff {v w : ℕ → Val F} (h : FullPass fl g v inPtr outPtr len m)
    (h' : FullPass fl g' w inPtr outPtr len m) (hout : outPtr.toNat + 8 * len.toNat ≤ 2 ^ 64) :
    SameOutput fl g g' inPtr outPtr len m ↔ ∀ i < len.toNat, v i = w i := by
  obtain ⟨n, tr, l, m₁, hrun, hret, -, hwrites⟩ := h
  obtain ⟨n', tr', l', m₂, hrun', hret', -, hwrites'⟩ := h'
  have hm₁ : m₁ = writeAll m (writesOf tr) := hrun.mem_eq
  have hm₂ : m₂ = writeAll m (writesOf tr') := hrun'.mem_eq
  constructor
  · rintro ⟨j, j', T, T', t, t', m', hj, hjret, hj', hjret'⟩ i hi
    obtain ⟨-, -, he⟩ := hj.halted_unique (clifNext_returned hjret) hrun (clifNext_returned hret)
    obtain ⟨-, -, he'⟩ := hj'.halted_unique (clifNext_returned hjret') hrun' (clifNext_returned hret')
    cases he
    cases he'
    have hinj : ∀ i < len.toNat, ∀ j < len.toNat, slot outPtr i = slot outPtr j → i = j :=
      fun i hi j hj => slot_inj hout hi hj
    have hv : m₁ (slot outPtr i) = v i := by
      rw [hm₁, hwrites]
      exact writeAll_of_mem (nodup_outCells hinj) (List.mem_map.mpr ⟨i, List.mem_range.mpr hi, rfl⟩) _
    have hw : m₁ (slot outPtr i) = w i := by
      rw [hm₂, hwrites']
      exact writeAll_of_mem (nodup_outCells hinj) (List.mem_map.mpr ⟨i, List.mem_range.mpr hi, rfl⟩) _
    rw [← hv, hw]
  · intro hvw
    have hsame : writesOf tr = writesOf tr' := by
      rw [hwrites, hwrites']
      exact List.map_congr_left fun i hi => by rw [hvw i (List.mem_range.mp hi)]
    refine ⟨n, n', tr, tr', l, l', m₁, hrun, hret, ?_, hret'⟩
    rwa [hm₁, hsame, ← hm₂]

theorem singleReturn_of_vectorizable (h : k.isVectorizablePhase1 = true) :
    ∃ value, k.singleReturn = some value ∧ isPureSimdExpr value = true := by
  unfold Kernel.isVectorizablePhase1 at h
  split at h
  · exact ⟨_, ‹_›, h⟩
  · cases h

/-- The verifier has seen the vector code of the loop. -/
theorem compileSimd_verified (fl : FloatOps F) (hs : compileSimd k = .ok g)
    (hsr : k.singleReturn = some value) :
    ∃ c, simdLower k.inputDtype 4 value k.outputDtype = .ok c ∧
      g.valTy 4 = clVecType k.inputDtype ∧ c.verify g.varTy g.valTy := by
  obtain ⟨-, value', c, bodyCode, final, hsr', hvec, V, E⟩ := compileSimd_loop fl hs
  rw [hsr] at hsr'
  cases hsr'
  obtain ⟨r, hbody⟩ := V.body
  have hmem : ∀ item ∈ codeAfter 2 g.code, item ∈ g.code := fun _ hi =>
    (codeAfter_suffix 2 g.code).subset hi
  have hload := E.verified (.load 4 (clVecType k.inputDtype) (slotExpr 0))
    (hmem _ (by rw [hbody]; simp))
  have hstore := E.verified (.store c (slotExpr 1)) (hmem _ (by rw [hbody]; simp))
  simp only [Item.verify, Bool.and_eq_true, decide_eq_true_eq] at hload hstore
  exact ⟨c, hvec, hload.2.symm, hstore.1.1⟩

/-- Every element has a scalar value of the output type. -/
theorem exists_scalar_value (hpure : isPureSimdExpr value = true)
    (hs : compileSimd k = .ok g) (hc : compileScalar fl k = .ok g')
    (hsr : k.singleReturn = some value) (hx : x.ty = clType k.inputDtype) :
    ∃ s, (k.sem fl false x).eval Env.empty value k.outputDtype = .ok s ∧
      s.ty = clType k.outputDtype := by
  obtain ⟨c, hc', -, hverify⟩ := compileSimd_verified fl hs hsr
  have huntrapped := untrapped_eval (S := k.sem fl false x) (ρ := Env.empty) hpure hc' hverify
  have hty := compileScalar_eval_hasTy hc hsr hx
  cases he : (k.sem fl false x).eval Env.empty value k.outputDtype with
  | error f =>
    rw [he] at hty
    exact absurd (huntrapped f he) hty
  | ok s =>
    rw [he] at hty
    exact ⟨s, rfl, hty⟩

/-- The values in the lanes of a pair. -/
theorem compileSimd_pair (hfl : fl.BitExact) (hpure : isPureSimdExpr value = true)
    (hs : compileSimd k = .ok g) (hsr : k.singleReturn = some value) {c : ClExpr F}
    (hc : simdLower k.inputDtype 4 value k.outputDtype = .ok c)
    {s t : Val F} {a b : Reading} (hx : x.ty = clType k.inputDtype) (hy : y.ty = clType k.inputDtype)
    (hxs : (k.sem fl false x).eval Env.empty value k.outputDtype = .ok s)
    (hys : (k.sem fl false y).eval Env.empty value k.outputDtype = .ok t)
    (ha : k.reading fl x = some a) (hb : k.reading fl y = some b) :
    Reads a s (a.lane s) ∧ Reads b t (b.lane t) ∧ ∀ vars vals, vals 4 = packLanes x y →
      c.eval fl vars vals = .ok (packLanes (a.lane s) (b.lane t)) := by
  obtain ⟨c', hc', hload, hverify⟩ := compileSimd_verified fl hs hsr
  cases hc.symm.trans hc'
  simp only [Kernel.reading, hsr] at ha hb
  have hlanes : ∀ vars vals, vals 4 = packLanes x y →
      ∃ v w, EvalLanes fl g.varTy g.valTy vars vals c
        ((k.sem fl false x).lane value k.outputDtype)
        ((k.sem fl false y).lane value k.outputDtype) v w := fun vars vals hvals =>
    simdLower_lanes (S := k.sem fl false x) (T := k.sem fl false y)
      ⟨rfl, rfl, hx, hy, hvals, hload⟩ hpure hc hverify
  have hsound : ∀ {v w}, (k.sem fl false x).lane value k.outputDtype = .ok v →
      (k.sem fl false y).lane value k.outputDtype = .ok w → Reads a s v ∧ Reads b t w :=
    fun hv hw => ⟨reading_sound (S := k.sem fl false x) hfl hx hpure hxs hv ha,
      reading_sound (S := k.sem fl false y) hfl hy hpure hys hw hb⟩
  obtain ⟨v, w, h⟩ := hlanes (fun _ => x) (fun _ => packLanes x y) rfl
  obtain ⟨hv, hw⟩ := hsound h.first h.second
  obtain rfl := hv.lane_eq
  obtain rfl := hw.lane_eq
  refine ⟨hv, hw, fun vars vals hvals => ?_⟩
  obtain ⟨v', w', h'⟩ := hlanes vars vals hvals
  obtain ⟨hv', hw'⟩ := hsound h'.first h'.second
  rw [h'.eval, hv'.lane_eq, hw'.lane_eq]

/-- Where every pair of lanes has a reading, the two functions agree exactly when the
vector loop meets no true boolean as a result. -/
theorem sameOutput_iff_number (hfl : fl.BitExact) (hvec : k.isVectorizablePhase1 = true)
    (hs : compileSimd k = .ok g) (hc : compileScalar fl k = .ok g')
    (hb : Buffers m inPtr outPtr len (clType k.inputDtype))
    (hr : ∀ i < len.toNat - len.toNat % 2, k.reading fl (m (slot inPtr i)) ≠ none) :
    SameOutput fl g g' inPtr outPtr len m ↔
      ∀ i < len.toNat - len.toNat % 2, k.reading fl (m (slot inPtr i)) = some .number := by
  obtain ⟨value, hsr, hpure⟩ := singleReturn_of_vectorizable hvec
  have hscalar : ∀ i, ∃ s, i < len.toNat →
      (k.sem fl false (m (slot inPtr i))).eval Env.empty value k.outputDtype = .ok s ∧
        s.ty = clType k.outputDtype := by
    intro i
    by_cases hi : i < len.toNat
    · obtain ⟨s, h⟩ := exists_scalar_value hpure hs hc hsr (hb.typed i hi)
      exact ⟨s, fun _ => h⟩
    · exact ⟨.i64 0, fun h => absurd h hi⟩
  choose s hs' using hscalar
  have hreading : ∀ i, ∃ a, i < len.toNat - len.toNat % 2 →
      k.reading fl (m (slot inPtr i)) = some a := by
    intro i
    by_cases hi : i < len.toNat - len.toNat % 2
    · obtain ⟨a, ha⟩ := Option.ne_none_iff_exists'.mp (hr i hi)
      exact ⟨a, fun _ => ha⟩
    · exact ⟨.number, fun h => absurd h hi⟩
  choose a ha using hreading
  -- the values that the vector function writes
  let v : ℕ → Val F := fun i => if i < len.toNat - len.toNat % 2 then (a i).lane (s i) else s i
  have hbody : ∀ i < len.toNat, ∀ ρ,
      (k.sem fl false (m (slot inPtr i))).Computes k.body ρ (.value (s i)) := by
    intro i hi ρ
    have heval := (eval_congr (S := k.sem fl false (m (slot inPtr i))) hpure ρ Env.empty _).trans
      (hs' i hi).1
    refine .ends (n := 1) (o := .ok (.ret (s i) ρ)) ?_ rfl
    rw [singleReturn_body hsr]
    simp only [Sem.execBody, Sem.execStmt]
    rw [show (k.sem fl false (m (slot inPtr i))).outputDtype = k.outputDtype from rfl, heval]
    rfl
  have hpair : ∀ i j c, i < len.toNat - len.toNat % 2 → j < len.toNat - len.toNat % 2 →
      simdLower k.inputDtype 4 value k.outputDtype = .ok c →
      Reads (a i) (s i) (v i) ∧ Reads (a j) (s j) (v j) ∧
        ∀ vars vals, vals 4 = packLanes (m (slot inPtr i)) (m (slot inPtr j)) →
          c.eval fl vars vals = .ok (packLanes (v i) (v j)) := by
    intro i j c hi hj hlower
    simp only [v, if_pos hi, if_pos hj]
    exact compileSimd_pair hfl hpure hs hsr hlower (hb.typed i (by omega)) (hb.typed j (by omega))
      (hs' i (by omega)).1 (hs' j (by omega)).1 (ha i hi) (ha j hj)
  have hvector : FullPass fl g v inPtr outPtr len m := by
    refine compileSimd_fullPass hs (fun value' c hsr' hlower j hj hje => ?_) ?_ hb
    · rw [hsr] at hsr'
      cases hsr'
      obtain ⟨h₁, h₂, hlanes⟩ := hpair j (j + 1) c hj (by omega) hlower
      exact ⟨hlanes, h₁.ty_eq (hs' j (by omega)).2, h₂.ty_eq (hs' (j + 1) (by omega)).2⟩
    · intro i hi hlt
      simp only [v, if_neg (not_lt.mpr hi)]
      exact hbody i hlt
  have hplain : FullPass fl g' s inPtr outPtr len m := compileScalar_fullPass hc hbody hb
  rw [hvector.sameOutput_iff hplain hb.outFits]
  obtain ⟨-, value', c, -, -, hsr', hlower, -, -⟩ := compileSimd_loop fl hs
  rw [hsr] at hsr'
  cases hsr'
  have hread : ∀ i, i < len.toNat - len.toNat % 2 → (v i = s i ↔ a i = .number) := fun i hi =>
    (hpair i i c hi hi hlower).1.eq_iff (hs' i (by omega)).2
  constructor
  · intro hvs i hi
    rw [ha i hi, (hread i hi).mp (hvs i (by omega))]
  · intro hnum i _
    by_cases hi : i < len.toNat - len.toNat % 2
    · refine (hread i hi).mpr ?_
      exact Option.some.inj ((ha i hi).symm.trans (hnum i hi))
    · exact if_neg hi

/-- **The vector code refines the scalar code** when the main loop only meets results that
both represent alike. When no true boolean is used as a number and no number as a test, a
true boolean as the result is the only thing that tells them apart. -/
theorem simd_refines_scalar (hfl : fl.BitExact) (hvec : k.isVectorizablePhase1 = true)
    (hs : compileSimd k = .ok g) (hc : compileScalar fl k = .ok g')
    (hb : Buffers m inPtr outPtr len (clType k.inputDtype)) :
    ((∀ i < len.toNat - len.toNat % 2, k.reading fl (m (slot inPtr i)) = some .number) →
      SameOutput fl g g' inPtr outPtr len m) ∧
    ((∀ i < len.toNat - len.toNat % 2, k.reading fl (m (slot inPtr i)) ≠ none) →
      SameOutput fl g g' inPtr outPtr len m →
      ∀ i < len.toNat - len.toNat % 2, k.reading fl (m (slot inPtr i)) = some .number) := by
  constructor
  · intro hnum
    exact (sameOutput_iff_number hfl hvec hs hc hb fun i hi => by simp [hnum i hi]).mpr hnum
  · intro hr hsame
    exact (sameOutput_iff_number hfl hvec hs hc hb hr).mp hsame

end Kernels

/-- `lambda x: x if x > 0 else -x` -/
def magnitude : Kernel (BitVec 64) where
  inputDtype := .i64
  outputDtype := .i64
  body := [.ret (.ifExpr (.compare .gt .param (.constI64 0)) .param (.unary .neg .param))]

/-- `lambda x: x + True` -/
def plusTrueSource : FnNode (BitVec 64) :=
  .lambda ["x"] (.binOp (.name "x") .add (.constant (.bool true)))

def plusTrue : Kernel (BitVec 64) where
  inputDtype := .i64
  outputDtype := .i64
  body := [.ret (.binOp .add .param (.constBool true))]

theorem exists_code {α ε : Type} {x : Except ε α} (h : x.toBool = true) : ∃ g, x = .ok g := by
  cases x with
  | ok g => exact ⟨g, rfl⟩
  | error e => cases h

/-- The elements `7` and `-5`. -/
theorem simd_refines_scalar_magnitude : ∃ g g', compileSimd magnitude = .ok g ∧
    compileScalar hostFloatBits magnitude = .ok g' ∧
    SameOutput hostFloatBits g g' 0 1024 2 fun a => .i64 (if a = 0 then 7 else -5) := by
  obtain ⟨g, hs⟩ := exists_code (x := compileSimd magnitude) (by decide)
  obtain ⟨g', hc⟩ := exists_code (x := compileScalar hostFloatBits magnitude) (by decide)
  have hb : Buffers (fun a => .i64 (if a = 0 then 7 else -5) : Mem (BitVec 64)) 0 1024 2
      (clType magnitude.inputDtype) := ⟨by decide, by decide, by decide, fun _ _ => rfl⟩
  refine ⟨g, g', hs, hc, (simd_refines_scalar hostFloatBits_bitExact (by decide) hs hc hb).1 fun i hi => ?_⟩
  obtain rfl | rfl : i = 0 ∨ i = 1 := by
    have hlt : i < 2 := hi
    omega
  · rfl
  · rfl

/-- On `0, 0` the vector code writes `-1, -1` and the scalar code `1, 1`. -/
theorem simd_differs_from_scalar : walkFunction .i64 plusTrueSource = some plusTrue ∧
    plusTrue.isVectorizablePhase1 = true ∧ ∃ g g', compileSimd plusTrue = .ok g ∧
      compileScalar hostFloatBits plusTrue = .ok g' ∧
      Buffers (fun _ => .i64 0 : Mem (BitVec 64)) 0 1024 2 (clType plusTrue.inputDtype) ∧
      ¬ SameOutput hostFloatBits g g' 0 1024 2 fun _ => .i64 0 := by
  obtain ⟨g, hs⟩ := exists_code (x := compileSimd plusTrue) (by decide)
  obtain ⟨g', hc⟩ := exists_code (x := compileScalar hostFloatBits plusTrue) (by decide)
  have hb : Buffers (fun _ => .i64 0 : Mem (BitVec 64)) 0 1024 2 (clType plusTrue.inputDtype) :=
    ⟨by decide, by decide, by decide, fun _ _ => rfl⟩
  refine ⟨rfl, rfl, g, g', hs, hc, hb, ?_⟩
  have hvector : FullPass hostFloatBits g (fun _ => .i64 (-1)) 0 1024 2 fun _ => .i64 0 := by
    refine compileSimd_fullPass hs (fun value c hsr hlower j _ _ => ?_) (fun i hi hlt => ?_) hb
    · cases hsr
      cases hlower
      refine ⟨fun vars vals hvals => ?_, rfl, rfl⟩
      have hparam : ClExpr.eval hostFloatBits vars vals
          (simdCoerce (.value 4) plusTrue.inputDtype plusTrue.outputDtype) = .ok (.i64x2 0 0) :=
        congrArg Except.ok hvals
      simp only [ClExpr.eval, hparam]
      rfl
    · exact absurd hi (by simpa using hlt)
  have hplain : FullPass hostFloatBits g' (fun _ => .i64 1) 0 1024 2 fun _ => .i64 0 :=
    compileScalar_fullPass hc (fun _ _ _ => .ends (n := 1) rfl rfl) hb
  rw [hvector.sameOutput_iff hplain hb.outFits]
  intro h
  exact absurd (h 0 (by decide)) (by decide)

end Gilmap
