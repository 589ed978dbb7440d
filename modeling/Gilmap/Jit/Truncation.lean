import Gilmap.Jit.InStep
import Gilmap.Python.SafeRuns

/-! # Expressions as the code takes them

Every comparison is made at the dtype that the walker promotes its operands to, and every
expression has the type that its shape says. A test is lowered at I64, whatever its dtype, and
the request reaches the floats in it: the code takes it for the expression with `int()` around
these floats.
-/
namespace Gilmap
open Library
variable {F : Type}

/-! ## The dtype of a comparison -/

/-- The walker's table agrees with the code generator's. -/
structure Walker.Declared (w : Walker) (S : Sem F) : Prop where
  input : w.inputDtype = S.inputDtype
  locals : ∀ name d, w.locals.lookup name = some d → S.locals name = some d

section Dtypes
variable {w : Walker} {S : Sem F} {e left right : PyExpr F} {ir l r : Expr F} {d lt rt : Dtype} {t : ClTy}

theorem Accepts.inspect_f64 (hw : w.Declared S) (h : Accepts w e ir d) (hd : d = .f64) :
    inspectDtype S.inputDtype S.locals ir = some .f64 := by
  have hlift : ∀ {e : Expr F} {d j : Dtype}, j = .f64 →
      (d = .f64 → inspectDtype S.inputDtype S.locals e = some .f64) →
      inspectDtype S.inputDtype S.locals (liftTo e d j) = some .f64 := by
    rintro e d _ rfl he
    cases d with
    | i64 => rfl
    | f64 => simpa using he rfl
  induction h with
  | param => simp [inspectDtype, ← hw.input, hd]
  | localVar _ hl => simp [inspectDtype, hw.locals _ _ hl, hd]
  | bool | int | compare | toInt => cases hd
  | float | math => rfl
  | unaryOp _ _ ih => simpa only [inspectDtype] using ih hd
  | binOp _ _ _ _ ihl _ => simp only [inspectDtype, hlift hd ihl, Option.some_or]
  | ifExp _ _ _ _ ihy _ => simp only [inspectDtype, hlift hd ihy, Option.some_or]
  | toFloat _ ih => exact hlift rfl ih

theorem Sem.ExprTy.inspect (h : S.ExprTy ir d t) :
    ∃ d', inspectDtype S.inputDtype S.locals ir = some d' := by
  induction h with
  | param | constI64 | constF64 | constBool | mathCall | castToI64 | castToF64 => exact ⟨_, rfl⟩
  | localVar hl => exact ⟨_, hl⟩
  | unary _ _ ih => exact ih
  | binOp _ _ _ _ ihl _ | compare _ _ _ ihl _ | ifExpr _ _ _ _ _ ihl _ =>
    obtain ⟨d', hd'⟩ := ihl
    exact ⟨d', by simp only [inspectDtype, hd', Option.some_or]⟩

theorem Sem.ExprTy.inspect_or (h : S.ExprTy l d t) (o : Option Dtype) :
    (inspectDtype S.inputDtype S.locals l).or o = inspectDtype S.inputDtype S.locals l := by
  obtain ⟨d', hd'⟩ := h.inspect
  simp [hd']

/-- An expression of integers that is taken for one of floats is no float. -/
theorem Accepts.not_float (hw : w.Declared S) (h : Accepts w e ir d) (hd : d = .i64)
    (hinspect : inspectDtype S.inputDtype S.locals ir = some .f64) : ¬ S.ExprTy ir .f64 .f64 := by
  induction h with
  | param => simp [inspectDtype, ← hw.input, hd] at hinspect
  | localVar _ hl => simp [inspectDtype, hw.locals _ _ hl, hd] at hinspect
  | bool | int => simp [inspectDtype] at hinspect
  | float | math | toFloat => cases hd
  | unaryOp _ _ ih =>
    intro hty
    cases hty with
    | unary he _ => exact ih hd hinspect he
  | @binOp _ _ _ _ _ _ lt rt _ _ _ _ ihl _ =>
    obtain ⟨rfl, rfl⟩ := Dtype.join_eq_i64.mp hd
    intro hty
    cases hty with
    | binOp hl hr _ _ =>
      simp only [inspectDtype, hl.inspect_or] at hinspect
      exact ihl rfl hinspect hl
  | compare =>
    intro hty
    cases hty
  | @ifExp _ _ _ _ _ _ _ yt nt _ _ _ _ ihy _ =>
    obtain ⟨rfl, rfl⟩ := Dtype.join_eq_i64.mp hd
    intro hty
    cases hty with
    | ifExpr _ _ hy _ =>
      simp only [inspectDtype, hy.inspect_or] at hinspect
      exact ihy rfl hinspect hy
  | @toInt _ _ at_ _ ih =>
    cases at_ with
    | i64 => exact ih rfl hinspect
    | f64 =>
      intro hty
      cases hty

/-- The code generator compares at the dtype that the walker promotes the operands to. -/
theorem Accepts.guess_eq (hw : w.Declared S) (hl : Accepts w left l lt) (hr : Accepts w right r rt)
    (hty : S.ExprTy (liftTo l lt (lt.join rt)) (guessCmpDtype S.inputDtype S.locals
      (liftTo l lt (lt.join rt)) (liftTo r rt (lt.join rt))) t)
    (ht : t ∈ laneTys (guessCmpDtype S.inputDtype S.locals (liftTo l lt (lt.join rt))
      (liftTo r rt (lt.join rt)))) :
    guessCmpDtype S.inputDtype S.locals (liftTo l lt (lt.join rt)) (liftTo r rt (lt.join rt)) =
      lt.join rt := by
  have hguess : guessCmpDtype S.inputDtype S.locals (liftTo l lt (lt.join rt))
      (liftTo r rt (lt.join rt)) =
        (inspectDtype S.inputDtype S.locals (liftTo l lt (lt.join rt))).getD .i64 := by
    rw [guessCmpDtype, hty.inspect_or]
  rw [hguess] at hty ht ⊢
  obtain ⟨d', hd'⟩ := hty.inspect
  rw [hd', Option.getD_some] at hty ht ⊢
  rcases Dtype.join_cases lt rt with hf | ⟨rfl, rfl⟩
  · rw [hf] at hd' ⊢
    cases lt with
    | i64 =>
      cases hd'
      rfl
    | f64 =>
      rw [liftTo_self, hl.inspect_f64 hw rfl] at hd'
      cases hd'
      rfl
  · cases d' with
    | i64 => rfl
    | f64 =>
      obtain rfl := List.mem_singleton.mp ht
      exact absurd hty (hl.not_float hw rfl hd')

end Dtypes

/-! ## The type of an expression -/

section Types
variable {w : Walker} {S : Sem F} {e : PyExpr F} {ir l : Expr F} {d lt j : Dtype} {t : ClTy}

theorem Accepts.ownDtype_eq (h : Accepts w e ir d) : w.ownDtype e = d := by
  rw [Walker.ownDtype, h.tag_eq]
  rfl

theorem exprTy_liftTo (h : S.ExprTy (liftTo l lt j) j t) :
    ∃ t', S.ExprTy l lt t' ∧ (lt = j → t' = t) := by
  by_cases hj : lt = j
  · subst hj
    exact ⟨t, by simpa using h, fun _ => rfl⟩
  · rw [liftTo, if_neg hj] at h
    cases lt <;> cases j
    · exact absurd rfl hj
    · cases h with
      | castToF64 he _ => exact ⟨_, he, fun h => by cases h⟩
    · cases h with
      | castToI64 he => exact ⟨_, he, fun h => by cases h⟩
    · exact absurd rfl hj

/-- No float is made of comparisons only. -/
theorem Accepts.not_isFlag (h : Accepts w e ir d) (hd : d = .f64) : e.isFlag = false := by
  induction h with
  | param | localVar | float | math | toFloat => rfl
  | bool | int | compare | toInt => cases hd
  | unaryOp _ _ ih => exact ih hd
  | binOp _ _ _ _ ihl ihr =>
    rw [PyExpr.isFlag]
    rcases Dtype.join_eq_f64.mp hd with hlt | hrt
    · rw [ihl hlt, Bool.false_and]
    · rw [ihr hrt, Bool.and_false]
  | ifExp _ _ _ _ ihy ihn =>
    rw [PyExpr.isFlag]
    rcases Dtype.join_eq_f64.mp hd with hyt | hnt
    · rw [ihy hyt, Bool.false_and]
    · rw [ihn hnt, Bool.and_false]

/-- The type of a lifted operand is the dtype's where it is lifted to `f64`. -/
theorem Accepts.lifted_f64 (h : Accepts w e l lt) (hj : j = .f64)
    (hown : ∀ {t}, S.ExprTy l lt t → t = if e.isFlag then .i8 else clType lt)
    (hty : S.ExprTy (liftTo l lt j) j t) : t = .f64 := by
  subst hj
  cases lt with
  | i64 =>
    cases hty
    rfl
  | f64 =>
    rw [liftTo_self] at hty
    rw [hown hty, h.not_isFlag rfl]
    rfl

/-- The type of an expression at its own dtype. -/
theorem Accepts.exprTy_eq (h : Accepts w e ir d) (hty : S.ExprTy ir d t) :
    t = if e.isFlag then .i8 else clType d := by
  induction h generalizing t with
  | param | localVar | int | float =>
    cases hty
    rfl
  | bool | math =>
    cases hty
    rfl
  | unaryOp _ _ ih =>
    cases hty with
    | unary he _ => exact ih he
  | @binOp _ _ left right _ _ lt rt _ hl hr _ ihl ihr =>
    cases hty with
    | binOp htl htr _ _ =>
      rcases Dtype.join_cases lt rt with hf | ⟨rfl, rfl⟩
      · rw [PyExpr.isFlag, hf]
        have ht : t = .f64 := by
          rw [hf] at htl
          exact hl.lifted_f64 rfl ihl htl
        have hflag : (left.isFlag && right.isFlag) = false := by
          rcases Dtype.join_eq_f64.mp hf with rfl | rfl
          · rw [hl.not_isFlag rfl, Bool.false_and]
          · rw [hr.not_isFlag rfl, Bool.and_false]
        rw [ht, hflag]
        rfl
      · have hleft := ihl htl
        have hright := ihr htr
        rw [PyExpr.isFlag]
        cases hfl : left.isFlag with
        | false =>
          rw [hfl] at hleft
          exact hleft
        | true => exact hright
  | compare =>
    cases hty
    rfl
  | @ifExp _ body orelse _ _ _ _ yt nt _ hy hn _ ihy ihn =>
    cases hty with
    | ifExpr _ _ hty htn =>
      rcases Dtype.join_cases yt nt with hf | ⟨rfl, rfl⟩
      · rw [PyExpr.isFlag, hf]
        have ht : t = .f64 := by
          rw [hf] at hty
          exact hy.lifted_f64 rfl ihy hty
        have hflag : (body.isFlag && orelse.isFlag) = false := by
          rcases Dtype.join_eq_f64.mp hf with rfl | rfl
          · rw [hy.not_isFlag rfl, Bool.false_and]
          · rw [hn.not_isFlag rfl, Bool.and_false]
        rw [ht, hflag]
        rfl
      · have hleft := ihy hty
        have hright := ihn htn
        rw [PyExpr.isFlag]
        cases hfl : body.isFlag with
        | false =>
          rw [hfl] at hleft
          exact hleft
        | true => exact hright
  | @toInt _ _ at_ ha ih =>
    cases at_ with
    | i64 => exact ih hty
    | f64 =>
      cases hty
      rw [PyExpr.isFlag, ha.not_isFlag rfl]
      rfl
  | @toFloat _ _ at_ ha ih => exact ha.lifted_f64 rfl ih hty

theorem Accepts.slotTy_eq (h : Accepts w e ir d) (hty : S.ExprTy ir d t) : t = w.slotTy e := by
  rw [Walker.slotTy, h.ownDtype_eq]
  exact h.exprTy_eq hty

end Types

/-! ## Truncated expressions -/

/-- `ir'` is the IR of `e`, and the code takes it for `ir` at the dtype `t`. -/
structure StandsFor (S : Sem F) (w : Walker) (e : PyExpr F) (t : Dtype) (ty : ClTy) (ir ir' : Expr F) :
    Prop where
  accepts : Accepts w e ir' t
  typed : S.ExprTy ir' t ty
  eval : ∀ ρ, S.eval ρ ir' t = S.eval ρ ir t

section Truncate
variable {S : Sem F} {w : Walker} {e : PyExpr F} {ir l : Expr F} {d t j lt : Dtype} {ty : ClTy}

/-- At any dtype at which the expression is lowered, there is an IR with `int()` for it. -/
def Truncates (S : Sem F) (w : Walker) (e : PyExpr F) (ir : Expr F) (d : Dtype) : Prop :=
  ∀ ⦃t ty⦄, S.ExprTy ir t ty → ty ∈ laneTys t → (d = .i64 → t = .i64) →
    ∃ ir', StandsFor S w (w.truncate e t) t ty ir ir' ∧
      (t = d → inspectDtype S.inputDtype S.locals ir' = inspectDtype S.inputDtype S.locals ir)

/-- An operand that is lowered at its own dtype and then lifted. -/
theorem Truncates.lifted (h : Truncates S w e l lt) (hacc : Accepts w e l lt)
    (hty : S.ExprTy (liftTo l lt j) j ty) (hmem : ty ∈ laneTys j) :
    ∃ l', Accepts w (w.truncate e (w.ownDtype e)) l' lt ∧ S.ExprTy (liftTo l' lt j) j ty ∧
      (∀ ρ, S.eval ρ (liftTo l' lt j) j = S.eval ρ (liftTo l lt j) j) ∧
      inspectDtype S.inputDtype S.locals (liftTo l' lt j) =
        inspectDtype S.inputDtype S.locals (liftTo l lt j) := by
  rw [hacc.ownDtype_eq]
  by_cases hj : lt = j
  · subst hj
    rw [liftTo_self] at hty
    obtain ⟨l', hl', hinspect⟩ := h hty hmem id
    refine ⟨l', hl'.accepts, ?_, ?_, ?_⟩
    · simpa using hl'.typed
    · simpa using hl'.eval
    · simpa using hinspect rfl
  · cases lt <;> cases j
    · exact absurd rfl hj
    · cases hty with
      | castToF64 hl ht =>
        obtain ⟨l', hl', -⟩ := h hl ht id
        refine ⟨l', hl'.accepts, .castToF64 hl'.typed ht, fun ρ => ?_, rfl⟩
        simp only [liftTo_i64_f64, Sem.eval, hl'.eval ρ]
    · cases hty with
      | castToI64 hl =>
        obtain ⟨l', hl', -⟩ := h hl (List.mem_singleton.mpr rfl) id
        refine ⟨l', hl'.accepts, .castToI64 hl'.typed, fun ρ => ?_, rfl⟩
        simp only [show ∀ e : Expr F, liftTo e .f64 .i64 = .castToI64 e from fun _ => rfl, Sem.eval,
          hl'.eval ρ]
    · exact absurd rfl hj

/-- An operand of a node that is lowered at I64. -/
theorem Truncates.word (h : Truncates S w e l lt) (hj : j = .i64 → lt = .i64)
    (hty : S.ExprTy (liftTo l lt j) .i64 ty) (hmem : ty ∈ laneTys .i64) :
    ∃ l', StandsFor S w (w.truncate e .i64) .i64 ty (liftTo l lt j) l' ∧
      (lt = .i64 → inspectDtype S.inputDtype S.locals l' =
        inspectDtype S.inputDtype S.locals (liftTo l lt j)) := by
  have hlt : lt = j := by
    cases lt <;> cases j
    · rfl
    · cases hty
      simp [laneTys] at hmem
    · cases hj rfl
    · rfl
  subst hlt
  rw [liftTo_self] at hty ⊢
  obtain ⟨l', hl', hinspect⟩ := h hty hmem fun _ => rfl
  exact ⟨l', hl', fun h => hinspect h.symm⟩

theorem Dtype.left_of_join {a b : Dtype} (h : a.join b = .i64) : a = .i64 :=
  (Dtype.join_eq_i64.mp h).1

theorem Dtype.right_of_join {a b : Dtype} (h : a.join b = .i64) : b = .i64 :=
  (Dtype.join_eq_i64.mp h).2

theorem binOpMap_truncate {op : PyBinOp} {irOp : BinOp} (h : binOpMap op = some irOp) (t : Dtype) :
    ∃ irOp', binOpMap (op.truncate t) = some irOp' ∧ (irOp.worksAt t = true → irOp'.worksAt t = true) ∧
      ∀ fl (x y : Val F), evalBinOp fl irOp' x y t = evalBinOp fl irOp x y t := by
  by_cases ht : t = .i64 ∧ op = .div
  · obtain ⟨rfl, rfl⟩ := ht
    cases h
    exact ⟨.floorDiv, rfl, fun _ => rfl, fun _ _ _ => rfl⟩
  · exact ⟨irOp, by rw [PyBinOp.truncate, if_neg ht, h], id, fun _ _ _ => rfl⟩

section Nodes
variable {left right : PyExpr F} {r : Expr F} {rt : Dtype}

theorem truncates_binOp {op : PyBinOp} {irOp : BinOp} (hop : binOpMap op = some irOp)
    (hmod : (op = .floorDiv ∨ op = .mod) → lt.join rt = .i64) (haccL : Accepts w left l lt)
    (haccR : Accepts w right r rt) (hl : Truncates S w left l lt) (hr : Truncates S w right r rt) :
    Truncates S w (.binOp left op right)
      (.binOp irOp (liftTo l lt (lt.join rt)) (liftTo r rt (lt.join rt))) (lt.join rt) := by
  intro t ty hty hmem ht
  obtain ⟨irOp', hop', hworks, heval⟩ := binOpMap_truncate (F := F) hop t
  cases hty with
  | binOp htl htr _ hw =>
    cases t with
    | i64 =>
      obtain ⟨l', hl', hil⟩ := hl.word Dtype.left_of_join htl hmem
      obtain ⟨r', hr', hir⟩ := hr.word Dtype.right_of_join htr hmem
      refine ⟨.binOp irOp' l' r', ⟨?_, ?_, fun ρ => ?_⟩, fun hd => ?_⟩
      · exact .binOp hop' hl'.accepts hr'.accepts fun _ => rfl
      · exact .binOp hl'.typed hr'.typed hmem (hworks hw)
      · simp only [Sem.eval, hl'.eval, hr'.eval, heval]
      · simp only [inspectDtype, hil (Dtype.left_of_join hd.symm), hir (Dtype.right_of_join hd.symm)]
    | f64 =>
      have hj : lt.join rt = .f64 := by
        cases h : lt.join rt
        · cases ht h
        · rfl
      have hop₀ : op.truncate .f64 = op := rfl
      have hmod' : (op.truncate .f64 = .floorDiv ∨ op.truncate .f64 = .mod) → lt.join rt = .i64 := by
        rwa [hop₀]
      rw [hj] at htl htr ⊢
      obtain ⟨l', haccL', hl', hel, hil⟩ := hl.lifted haccL htl hmem
      obtain ⟨r', haccR', hr', her, hir⟩ := hr.lifted haccR htr hmem
      refine ⟨.binOp irOp' (liftTo l' lt .f64) (liftTo r' rt .f64), ⟨?_, ?_, fun ρ => ?_⟩, fun _ => ?_⟩
      · have hacc := Accepts.binOp hop' haccL' haccR' hmod'
        rwa [hj] at hacc
      · exact .binOp hl' hr' hmem (hworks hw)
      · simp only [Sem.eval, hel, her, heval]
      · simp only [inspectDtype, hil, hir]

theorem truncates_compare (hw : w.Declared S) {op : PyCmpOp} {irOp : CmpOp} (hop : cmpMap op = some irOp)
    (haccL : Accepts w left l lt) (haccR : Accepts w right r rt) (hl : Truncates S w left l lt)
    (hr : Truncates S w right r rt) :
    Truncates S w (.compare left [op] [right])
      (.compare irOp (liftTo l lt (lt.join rt)) (liftTo r rt (lt.join rt))) .i64 := by
  intro t ty hty hmem ht
  cases hty with
  | compare htl htr hmem' =>
    have hguess := haccL.guess_eq hw haccR htl hmem'
    rw [hguess] at htl htr hmem'
    obtain ⟨l', haccL', hl', hel, hil⟩ := hl.lifted haccL htl hmem'
    obtain ⟨r', haccR', hr', her, hir⟩ := hr.lifted haccR htr hmem'
    have hguess' : guessCmpDtype S.inputDtype S.locals (liftTo l' lt (lt.join rt))
        (liftTo r' rt (lt.join rt)) = lt.join rt := by
      refine Eq.trans ?_ hguess
      simp only [guessCmpDtype, hil, hir]
    obtain rfl := ht rfl
    refine ⟨.compare irOp (liftTo l' lt (lt.join rt)) (liftTo r' rt (lt.join rt)),
      ⟨.compare hop haccL' haccR', ?_, fun ρ => ?_⟩, fun _ => ?_⟩
    · exact .compare (hguess'.symm ▸ hl') (hguess'.symm ▸ hr') (hguess'.symm ▸ hmem')
    · simp only [Sem.eval, hguess, hguess', hel, her]
    · simp only [inspectDtype, hil, hir]

theorem truncates_ifExp {test body orelse : PyExpr F} {c y n : Expr F} {tt yt nt : Dtype}
    (hc : Truncates S w test c tt) (haccY : Accepts w body y yt) (haccN : Accepts w orelse n nt)
    (hy : Truncates S w body y yt) (hn : Truncates S w orelse n nt) :
    Truncates S w (.ifExp test body orelse)
      (.ifExpr c (liftTo y yt (yt.join nt)) (liftTo n nt (yt.join nt))) (yt.join nt) := by
  intro t ty hty hmem ht
  cases hty with
  | ifExpr htc hmemc hty htn =>
    obtain ⟨c', hc', -⟩ := hc htc hmemc fun _ => rfl
    cases t with
    | i64 =>
      obtain ⟨y', hy', hiy⟩ := hy.word Dtype.left_of_join hty hmem
      obtain ⟨n', hn', hin⟩ := hn.word Dtype.right_of_join htn hmem
      refine ⟨.ifExpr c' y' n', ⟨?_, ?_, fun ρ => ?_⟩, fun hd => ?_⟩
      · exact .ifExp hc'.accepts hy'.accepts hn'.accepts
      · exact .ifExpr hc'.typed hmemc hy'.typed hn'.typed
      · simp only [Sem.eval, hc'.eval, hy'.eval, hn'.eval]
      · simp only [inspectDtype, hiy (Dtype.left_of_join hd.symm), hin (Dtype.right_of_join hd.symm)]
    | f64 =>
      have hj : yt.join nt = .f64 := by
        cases h : yt.join nt
        · cases ht h
        · rfl
      rw [hj] at hty htn ⊢
      obtain ⟨y', haccY', hy', hey, hiy⟩ := hy.lifted haccY hty hmem
      obtain ⟨n', haccN', hn', hen, hin⟩ := hn.lifted haccN htn hmem
      refine ⟨.ifExpr c' (liftTo y' yt .f64) (liftTo n' nt .f64), ⟨?_, ?_, fun ρ => ?_⟩, fun _ => ?_⟩
      · have hacc := Accepts.ifExp hc'.accepts haccY' haccN'
        rwa [hj] at hacc
      · exact .ifExpr hc'.typed hmemc hy' hn'
      · simp only [Sem.eval, hc'.eval, hey, hen]
      · simp only [inspectDtype, hiy, hin]

end Nodes

/-- `int()` around a name or a literal that holds a float. -/
theorem truncates_float (hacc : Accepts w e ir .f64) (htype : S.ExprTy ir .f64 .f64)
    (hword : ∀ {ty}, S.ExprTy ir .i64 ty → ty = .i64)
    (heval : ∀ ρ, S.eval ρ ir .i64 = S.eval ρ ir .f64 >>= Val.fcvtToSint S.fl)
    (hself : w.truncate e .f64 = e) (hint : w.truncate e .i64 = .call (.name "int") [e] []) :
    Truncates S w e ir .f64 := by
  intro t ty hty hmem _
  cases t with
  | f64 =>
    obtain rfl := List.mem_singleton.mp hmem
    rw [hself]
    exact ⟨ir, ⟨hacc, hty, fun _ => rfl⟩, fun _ => rfl⟩
  | i64 =>
    obtain rfl := hword hty
    rw [hint]
    refine ⟨.castToI64 ir, ⟨.toInt hacc, .castToI64 htype, fun ρ => ?_⟩, nofun⟩
    rw [heval ρ]
    rfl

/-- Where there is no float, the expression is left as it is. -/
theorem truncates_word (hacc : Accepts w e ir .i64) (hself : w.truncate e .i64 = e) :
    Truncates S w e ir .i64 := by
  intro t ty hty _ ht
  obtain rfl := ht rfl
  rw [hself]
  exact ⟨ir, ⟨hacc, hty, fun _ => rfl⟩, fun _ => rfl⟩

theorem truncates_name {id : String} (hw : w.Declared S) (hacc : Accepts w (.name id) ir d) :
    Truncates S w (.name id) ir d := by
  have htag := hacc.tag_eq
  cases d with
  | i64 => exact truncates_word hacc (by simp [Walker.truncate, htag])
  | f64 =>
    have hself : w.truncate (F := F) (.name id) .f64 = .name id := by simp [Walker.truncate]
    have hint : w.truncate (F := F) (.name id) .i64 = .call (.name "int") [.name id] [] := by
      simp [Walker.truncate, htag]
    generalize hd : Dtype.f64 = d at hacc
    cases hacc with
    | param =>
      have hin : S.inputDtype = .f64 := by rw [← hw.input, hd]
      have hacc : Accepts (F := F) w (.name w.param) .param w.inputDtype := .param
      rw [← hd] at hacc ⊢
      refine truncates_float hacc .param (fun h => by cases h; rfl) (fun ρ => ?_) hself hint
      simp [Sem.eval, coerceVal, hin, bind, Except.bind]
    | localVar hne hl =>
      subst hd
      have hS := hw.locals id _ hl
      refine truncates_float (.localVar hne hl) (.localVar hS) (fun h => by cases h; rfl) (fun ρ => ?_) hself hint
      simp only [Sem.eval, hS]
      cases S.readLocal ρ id <;> rfl

/-- The code of an accepted expression is that of the truncated one. -/
theorem Accepts.truncates (hw : w.Declared S) (h : Accepts w e ir d) : Truncates S w e ir d := by
  induction h with
  | param => exact truncates_name hw .param
  | localVar hne hl => exact truncates_name hw (.localVar hne hl)
  | bool b => exact truncates_word (.bool b) rfl
  | int n => exact truncates_word (.int n) rfl
  | float x =>
    exact truncates_float (.float x) .constF64 (fun h => by cases h; rfl) (fun _ => rfl) rfl rfl
  | @unaryOp op irOp e inner d hop _ ih =>
    intro t ty hty hmem ht
    cases hty with
    | unary hte hneg =>
      obtain ⟨inner', h', hinspect⟩ := ih hte hmem ht
      exact ⟨.unary irOp inner', ⟨.unaryOp hop h'.accepts, .unary h'.typed hneg, fun ρ => by
        simp only [Sem.eval, h'.eval]⟩, hinspect⟩
  | binOp hop hl hr hmod ihl ihr => exact truncates_binOp hop hmod hl hr ihl ihr
  | compare hop hl hr ihl ihr => exact truncates_compare hw hop hl hr ihl ihr
  | ifExp _ hy hn ihc ihy ihn => exact truncates_ifExp ihc hy hn ihy ihn
  | @math attr fn arg _ at_ hfn ha ih =>
    intro t ty hty hmem _
    cases hty with
    | mathCall hta =>
      obtain ⟨a', ha', hta', hea, hia⟩ := ih.lifted ha hta hmem
      exact ⟨.mathCall fn (liftTo a' at_ .f64), ⟨.math hfn ha', .mathCall hta', fun ρ => by
        simp only [Sem.eval, hea]⟩, fun _ => rfl⟩
  | @toInt arg _ at_ ha ih =>
    intro t ty hty hmem ht
    obtain rfl := ht rfl
    obtain ⟨a', ha', hta', hea, hia⟩ := ih.lifted ha hty hmem
    exact ⟨liftTo a' at_ .i64, ⟨.toInt ha', hta', hea⟩, fun _ => hia⟩
  | @toFloat arg _ at_ ha ih =>
    intro t ty hty hmem _
    cases t with
    | f64 =>
      obtain ⟨a', ha', hta', hea, hia⟩ := ih.lifted ha hty hmem
      exact ⟨liftTo a' at_ .f64, ⟨.toFloat ha', hta', hea⟩, fun _ => hia⟩
    | i64 =>
      obtain ⟨a', ha', -⟩ := ih.word (j := .f64) (fun h => by cases h) hty hmem
      exact ⟨a', ha', fun h => by cases h⟩

end Truncate

end Gilmap
