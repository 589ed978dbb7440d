import Gilmap.Jit.SimdLoop

/-! # The types of a compiled body

What the verifier has checked when a kernel compiles, read back on the IR: every expression
that is lowered has an instruction type at the dtype it is lowered for, and the statements
use them as the types of their variables. A comparison has the type of a flag, at any dtype.
-/
namespace Gilmap
open Library
variable {F : Type}

/-- The types that the scalar instructions of a dtype work on. -/
def laneTys : Dtype → List ClTy
  | .i64 => [.i8, .i64]
  | .f64 => [.f64]

/-- The dtypes at which the code generator has an instruction for the operator. -/
def BinOp.worksAt : BinOp → Dtype → Bool
  | .pow, .i64 | .floorDiv, .f64 | .mod, .f64 => false
  | _, _ => true

/-- The expression, lowered for the dtype, has the type. -/
inductive Sem.ExprTy (S : Sem F) : Expr F → Dtype → ClTy → Prop
  | param {d : Dtype} : ExprTy S .param d (clType d)
  | localVar {name : String} {d d' : Dtype} : S.locals name = some d' →
      ExprTy S (.localVar name) d (clType d)
  | constI64 {value : ℤ} {d : Dtype} : ExprTy S (.constI64 value) d (clType d)
  | constF64 {value : F} {d : Dtype} : ExprTy S (.constF64 value) d (clType d)
  | constBool {value : Bool} {d : Dtype} : ExprTy S (.constBool value) d .i64
  | unary {op : UnaryOp} {e : Expr F} {d : Dtype} {t : ClTy} : ExprTy S e d t →
      (op = .neg → t ∈ laneTys d) → ExprTy S (.unary op e) d t
  | binOp {op : BinOp} {l r : Expr F} {d : Dtype} {t : ClTy} : ExprTy S l d t →
      ExprTy S r d t → t ∈ laneTys d → op.worksAt d = true → ExprTy S (.binOp op l r) d t
  | compare {op : CmpOp} {l r : Expr F} {d : Dtype} {t : ClTy} :
      ExprTy S l (guessCmpDtype S.inputDtype S.locals l r) t →
      ExprTy S r (guessCmpDtype S.inputDtype S.locals l r) t →
      t ∈ laneTys (guessCmpDtype S.inputDtype S.locals l r) → ExprTy S (.compare op l r) d .i8
  | ifExpr {c x y : Expr F} {d : Dtype} {s t : ClTy} : ExprTy S c .i64 s → s ∈ laneTys .i64 →
      ExprTy S x d t → ExprTy S y d t → ExprTy S (.ifExpr c x y) d t
  | mathCall {fn : MathFn} {e : Expr F} : ExprTy S e .f64 .f64 → ExprTy S (.mathCall fn e) .f64 .f64
  | castToI64 {e : Expr F} {d : Dtype} : ExprTy S e .f64 .f64 → ExprTy S (.castToI64 e) d .i64
  | castToF64 {e : Expr F} {d : Dtype} {t : ClTy} : ExprTy S e .i64 t → t ∈ laneTys .i64 →
      ExprTy S (.castToF64 e) d .f64

/-- The expression can be tested. -/
def Sem.TestTy (S : Sem F) (e : Expr F) : Prop := ∃ t, S.ExprTy e .i64 t ∧ t ∈ laneTys .i64

namespace Sem

mutual

def stmtTyped (S : Sem F) : Stmt F → Prop
  | .assign name dtype value => S.locals name = some dtype ∧ S.ExprTy value dtype (clType dtype)
  | .ret value => S.ExprTy value S.outputDtype (clType S.outputDtype)
  | .forRange var start stop body =>
    S.locals var = some .i64 ∧ S.ExprTy start .i64 .i64 ∧ S.ExprTy stop .i64 .i64 ∧ bodyTyped S body
  | .whileDo cond body => S.TestTy cond ∧ bodyTyped S body
  | .ifElse test thenBody elseBody => S.TestTy test ∧ bodyTyped S thenBody ∧ bodyTyped S elseBody
  | .brk | .cont => True

/-- What follows a terminating statement is not lowered. -/
def bodyTyped (S : Sem F) : List (Stmt F) → Prop
  | [] => True
  | stmt :: rest => stmtTyped S stmt ∧ (stmt.terminates = false → bodyTyped S rest)

end

end Sem

/-! ## Verified expressions -/

/-- The types of the parameter and of the variables are those of their dtypes. -/
structure TypesOf (cx : LowerCx) (S : Sem F) (varTys valTys : ℕ → ClTy) (Γ : Locals) : Prop where
  input : S.inputDtype = cx.inputDtype
  output : S.outputDtype = cx.outputDtype
  param : valTys cx.param = clType cx.inputDtype
  result : varTys cx.resultVar = clType cx.outputDtype
  locals : ∀ {name v d}, Γ.lookup name = some (v, d) → S.locals name = some d ∧ varTys v = clType d

section Lowering
variable {cx : LowerCx} {S : Sem F} {varTys valTys : ℕ → ClTy} {Γ Δ : Locals}

theorem TypesOf.mono (h : TypesOf cx S varTys valTys Δ)
    (hΓ : ∀ {name p}, Γ.lookup name = some p → Δ.lookup name = some p) :
    TypesOf cx S varTys valTys Γ :=
  { h with locals := fun hl => h.locals (hΓ hl) }

theorem Sem.ExprTy.scalar {e : Expr F} {d : Dtype} {t : ClTy} (h : S.ExprTy e d t) :
    t ∈ [ClTy.i8, .i64, .f64] := by
  induction h with
  | @param d | @localVar _ d | @constI64 _ d | @constF64 _ d => cases d <;> simp [clType]
  | constBool | compare | mathCall | castToI64 | castToF64 => simp
  | unary _ _ ih | binOp _ _ _ _ ih | ifExpr _ _ _ _ _ ih => exact ih

/-- The scalar types on which the verifier takes an instruction for words. -/
theorem Sem.ExprTy.mem_i64 {e : Expr F} {d : Dtype} {t : ClTy} (h : S.ExprTy e d t)
    (ht : t ∈ [ClTy.i8, .i64, .i64x2]) : t ∈ laneTys .i64 := by
  have hs := h.scalar
  simp only [laneTys, List.mem_cons, List.not_mem_nil, or_false] at hs ht ⊢
  rcases hs with rfl | rfl | rfl <;> simp_all

theorem Sem.ExprTy.mem_f64 {e : Expr F} {d : Dtype} {t : ClTy} (h : S.ExprTy e d t)
    (ht : t ∈ [ClTy.f64, .f64x2]) : t ∈ laneTys .f64 := by
  have hs := h.scalar
  simp only [laneTys, List.mem_cons, List.not_mem_nil, or_false] at hs ht ⊢
  rcases hs with rfl | rfl | rfl <;> simp_all

theorem lowerCoerce_ty {e : ClExpr F} {actual expected : Dtype}
    (he : e.ty varTys valTys = clType actual) :
    (lowerCoerce e actual expected).ty varTys valTys = clType expected := by
  cases actual <;> cases expected
  · exact he
  · rfl
  · rfl
  · exact he

/-- A verified operator has equal operand types, which are types of the dtype. -/
theorem lowerBinOp_ty {op : BinOp} {l r : Expr F} {d : Dtype} {cl cr c : ClExpr F}
    (h : lowerBinOp op cl cr d = .ok c) (hv : c.verify varTys valTys)
    (hl : cl.verify varTys valTys → S.ExprTy l d (cl.ty varTys valTys))
    (hr : cr.verify varTys valTys → S.ExprTy r d (cr.ty varTys valTys)) :
    S.ExprTy (.binOp op l r) d (c.ty varTys valTys) := by
  cases op <;> cases d <;> simp only [lowerBinOp] at h <;> cases h <;>
    simp only [ClExpr.verify, Bool.and_eq_true, decide_eq_true_eq] at hv
  case pow.f64 =>
    obtain ⟨⟨⟨hvl, hvr⟩, hlt⟩, hrt⟩ := hv
    have htl := hl hvl
    have htr := hr hvr
    rw [hlt] at htl
    rw [hrt] at htr
    exact .binOp htl htr (List.mem_singleton.mpr rfl) rfl
  case add.f64 | sub.f64 | mul.f64 | div.f64 =>
    obtain ⟨⟨⟨hvl, hvr⟩, ht⟩, hlr⟩ := hv
    exact .binOp (hl hvl) (hlr ▸ hr hvr) ((hl hvl).mem_f64 ht) rfl
  case add.i64 | sub.i64 | mul.i64 =>
    obtain ⟨⟨⟨hvl, hvr⟩, ht⟩, hlr⟩ := hv
    exact .binOp (hl hvl) (hlr ▸ hr hvr) ((hl hvl).mem_i64 ht) rfl
  case div.i64 | floorDiv.i64 | mod.i64 =>
    obtain ⟨⟨⟨hvl, hvr⟩, ht⟩, hlr⟩ := hv
    exact .binOp (hl hvl) (hlr ▸ hr hvr) ht rfl

/-- A lowered expression that the verifier accepts has the type recorded for it. -/
theorem lowerExpr_exprTy (hT : TypesOf cx S varTys valTys Γ) {e : Expr F} {d : Dtype}
    {c : ClExpr F} (h : lowerExpr cx Γ e d = .ok c) (hv : c.verify varTys valTys) :
    S.ExprTy e d (c.ty varTys valTys) := by
  induction e generalizing d c with
  | param =>
    cases h
    rw [lowerCoerce_ty (by exact hT.param)]
    exact .param
  | localVar name =>
    simp only [lowerExpr] at h
    cases hl : Γ.lookup name with
    | none => simp [hl] at h
    | some p =>
      obtain ⟨v, dtype⟩ := p
      simp only [hl] at h
      cases h
      obtain ⟨hS, hvar⟩ := hT.locals hl
      rw [lowerCoerce_ty (by exact hvar)]
      exact .localVar hS
  | constI64 value =>
    cases h
    rw [lowerCoerce_ty rfl]
    exact .constI64
  | constF64 value =>
    cases h
    rw [lowerCoerce_ty rfl]
    exact .constF64
  | constBool value =>
    cases h
    exact .constBool
  | unary op e ih =>
    simp only [lowerExpr, Except.bind_eq_ok] at h
    obtain ⟨c₀, hc₀, he⟩ := h
    cases he
    cases op with
    | plus => exact .unary (ih hc₀ hv) (by simp)
    | neg =>
      cases d <;> simp only [lowerUnary, ClExpr.verify, Bool.and_eq_true, decide_eq_true_eq] at hv
      · have hty := ih hc₀ hv.1
        exact .unary hty fun _ => hty.mem_i64 hv.2
      · have hty := ih hc₀ hv.1
        exact .unary hty fun _ => hty.mem_f64 hv.2
  | binOp op l r ihl ihr =>
    simp only [lowerExpr, Except.bind_eq_ok] at h
    obtain ⟨cl, hcl, cr, hcr, hc⟩ := h
    exact lowerBinOp_ty hc hv (ihl hcl) (ihr hcr)
  | compare op l r ihl ihr =>
    simp only [lowerExpr, Except.bind_eq_ok] at h
    obtain ⟨cl, hcl, cr, hcr, hc⟩ := h
    cases hc
    have hg := guessCmpDtype_lowered hT.input (fun hl => (hT.locals hl).1) hcl hcr
    rw [hg] at hcl hcr hv ⊢
    -- both kinds of comparison give a flag on scalars
    cases hd : guessCmpDtype S.inputDtype S.locals l r <;> rw [hd] at hcl hcr hv <;>
      simp only [lowerCmpOp, ClExpr.verify, Bool.and_eq_true, decide_eq_true_eq] at hv <;>
      obtain ⟨⟨⟨hvl, hvr⟩, ht⟩, hlr⟩ := hv
    · have hmem := (ihl hcl hvl).mem_i64 ht
      have hne : cl.ty varTys valTys ≠ .i64x2 := fun h => by simp [h, laneTys] at hmem
      simp only [lowerCmpOp, ClExpr.ty, hne, if_false]
      exact .compare (hd ▸ ihl hcl hvl) (hd ▸ hlr ▸ ihr hcr hvr) (hd ▸ hmem)
    · have hmem := (ihl hcl hvl).mem_f64 ht
      have hne : cl.ty varTys valTys ≠ .f64x2 := fun h => by simp [h, laneTys] at hmem
      simp only [lowerCmpOp, ClExpr.ty, hne, if_false]
      exact .compare (hd ▸ ihl hcl hvl) (hd ▸ hlr ▸ ihr hcr hvr) (hd ▸ hmem)
  | ifExpr c x y ihc ihx ihy =>
    simp only [lowerExpr, Except.bind_eq_ok] at h
    obtain ⟨cc, hcc, cy, hcy, cn, hcn, he⟩ := h
    cases he
    simp only [ClExpr.verify, Bool.and_eq_true, decide_eq_true_eq] at hv
    obtain ⟨⟨⟨⟨hvc, hvy⟩, hvn⟩, ht⟩, hyn⟩ := hv
    have hty := ihx hcy hvy
    exact .ifExpr (ihc hcc hvc) ht hty (hyn ▸ ihy hcn hvn)
  | mathCall fn e ih =>
    simp only [lowerExpr] at h
    split at h
    · rename_i hd
      subst hd
      simp only [Except.bind_eq_ok] at h
      obtain ⟨c₀, hc₀, he⟩ := h
      cases he
      simp only [ClExpr.verify, Bool.and_eq_true, decide_eq_true_eq] at hv
      exact .mathCall (hv.2 ▸ ih hc₀ hv.1)
    · cases h
  | castToI64 e ih =>
    simp only [lowerExpr, Except.bind_eq_ok] at h
    obtain ⟨c₀, hc₀, he⟩ := h
    cases he
    simp only [ClExpr.verify, Bool.and_eq_true, decide_eq_true_eq] at hv
    exact .castToI64 (hv.2 ▸ ih hc₀ hv.1.1)
  | castToF64 e ih =>
    simp only [lowerExpr, Except.bind_eq_ok] at h
    obtain ⟨c₀, hc₀, he⟩ := h
    cases he
    simp only [ClExpr.verify, Bool.and_eq_true, Bool.or_eq_true, decide_eq_true_eq] at hv
    rcases hv.2 with ⟨-, ht⟩ | ⟨ht, -⟩
    · exact .castToF64 (ih hc₀ hv.1) ht
    · cases ht

/-! ## Verified statements -/

theorem testTy_of_brif (hT : TypesOf cx S varTys valTys Γ) {test : Expr F} {c : ClExpr F} {yes no : ℕ}
    (h : lowerExpr cx Γ test .i64 = .ok c) (hv : Item.verify varTys valTys (.brif c yes no)) :
    S.TestTy test := by
  simp only [Item.verify, Bool.and_eq_true, decide_eq_true_eq] at hv
  exact ⟨_, lowerExpr_exprTy hT h hv.1, hv.2⟩

theorem exprTy_of_defVar (hT : TypesOf cx S varTys valTys Γ) {value : Expr F} {c : ClExpr F}
    {d : Dtype} {v : ℕ} (h : lowerExpr cx Γ value d = .ok c)
    (hv : Item.verify varTys valTys (.defVar v c)) : S.ExprTy value d (varTys v) := by
  simp only [Item.verify, Bool.and_eq_true, decide_eq_true_eq] at hv
  exact hv.2 ▸ lowerExpr_exprTy hT h hv.1

/-- The bounds and the counter of a verified `for` are words. -/
theorem forCode_types {nb startK stopK counter : ℕ} {startV stopV : ClExpr F} {dtype : Dtype}
    {body close : List (Item F)} (hcounter : varTys counter = clType dtype)
    (hv : ∀ item ∈ forCode nb startK stopK counter startV stopV body close,
      Item.verify varTys valTys item) :
    dtype = .i64 ∧ startV.verify varTys valTys ∧ startV.ty varTys valTys = .i64 ∧
      stopV.verify varTys valTys ∧ stopV.ty varTys valTys = .i64 := by
  have hstart := hv (.letVal startK startV) (by simp [forCode])
  have hstop := hv (.letVal stopK stopV) (by simp [forCode])
  have hinit := hv (.defVar counter (.value startK)) (by simp [forCode])
  have htest := hv (.brif (.icmp .slt (.useVar counter) (.value stopK)) (nb + 1) (nb + 2))
    (by simp [forCode])
  simp only [Item.verify, ClExpr.verify, ClExpr.ty, Bool.and_eq_true, decide_eq_true_eq]
    at hstart hstop hinit htest
  obtain ⟨⟨⟨-, hmem⟩, heq⟩, -⟩ := htest
  replace heq := of_decide_eq_true heq
  have hinit := of_decide_eq_true hinit.2
  have hd : dtype = .i64 := by
    cases dtype with
    | i64 => rfl
    | f64 => simp [hcounter, clType] at hmem
  subst hd
  exact ⟨rfl, hstart.1, by rw [hstart.2, hinit, hcounter, clType], hstop.1,
    by rw [hstop.2, ← heq, hcounter, clType]⟩

mutual

theorem lowerStmt_typed : ∀ (stmt : Stmt F) {loops : List LoopFrame} {s s' : LowerState}
    {c : List (Item F)}, lowerStmt cx loops stmt s = .ok (c, s') →
    TypesOf cx S varTys valTys s'.locals → (∀ item ∈ c, Item.verify varTys valTys item) →
    S.stmtTyped stmt
  | .assign name dtype value, loops, s, s', c, h, hT, hv => by
    obtain ⟨v, var, hvalue, ha, rfl, -⟩ := lowerStmt_assign h
    obtain ⟨he, hl⟩ := emits_assignVar (F := F) ha
    obtain ⟨hS, hvar⟩ := hT.locals hl
    have hty := exprTy_of_defVar (hT.mono he.locals) hvalue (hv _ List.mem_cons_self)
    exact ⟨hS, hvar ▸ hty⟩
  | .ret value, loops, s, s', c, h, hT, hv => by
    obtain ⟨v, hvalue, rfl, rfl, -⟩ := lowerStmt_ret h
    have hty := exprTy_of_defVar (hT.mono id) hvalue (hv _ List.mem_cons_self)
    rw [hT.result, ← hT.output] at hty
    exact hty
  | .forRange var start stop body, loops, s, s', c, h, hT, hv => by
    obtain ⟨startV, stopV, code, s₃, hstart, hstop, hbody, rfl, rfl⟩ := lowerStmt_forRange h
    obtain ⟨hf, -, -, dtype, hl⟩ := emits_forBodyState (F := F) s var startV stopV
    have hbodyEmits := lowerBody_emits body hbody
    have hT₃ : TypesOf cx S varTys valTys s₃.locals := hT.mono id
    have hΓ : TypesOf cx S varTys valTys s.locals := hT₃.mono fun hp => hbodyEmits.locals (hf.locals hp)
    obtain ⟨hS, hvar⟩ := hT₃.locals (hbodyEmits.locals hl)
    obtain ⟨rfl, hsv, hst, htv, htt⟩ := forCode_types hvar hv
    refine ⟨hS, hst ▸ lowerExpr_exprTy hΓ hstart hsv, htt ▸ lowerExpr_exprTy hΓ hstop htv, ?_⟩
    exact lowerBody_typed body rfl hbody hT₃ fun item hi => hv item (by simp [forCode, hi])
  | .whileDo cond body, loops, s, s', c, h, hT, hv => by
    obtain ⟨condV, code, s₃, hcond, hbody, rfl, rfl⟩ := lowerStmt_whileDo h
    have hbodyEmits := lowerBody_emits body hbody
    have hT₃ : TypesOf cx S varTys valTys s₃.locals := hT.mono id
    have hΓ : TypesOf cx S varTys valTys s.locals := hT₃.mono fun hp => hbodyEmits.locals hp
    have htest := hv (.brif condV (s.nextBlock + 1) (s.nextBlock + 2)) (by simp [whileCode])
    exact ⟨testTy_of_brif hΓ hcond htest,
      lowerBody_typed body rfl hbody hT₃ fun item hi => hv item (by simp [whileCode, hi])⟩
  | .ifElse test thenBody elseBody, loops, s, s', c, h, hT, hv => by
    obtain ⟨cond, thenCode, s₁, elseCode, s₂, hcond, hthen, helse, rfl, rfl⟩ := lowerStmt_ifElse h
    have hthenEmits := lowerBody_emits thenBody hthen
    have helseEmits := lowerBody_emits elseBody helse
    have hT₂ : TypesOf cx S varTys valTys s₂.locals := hT.mono id
    have hT₁ : TypesOf cx S varTys valTys s₁.locals := hT₂.mono fun hp => helseEmits.locals hp
    have hΓ : TypesOf cx S varTys valTys s.locals := hT₁.mono fun hp => hthenEmits.locals hp
    have htest := hv (.brif cond s.nextBlock (s.nextBlock + 1)) (by simp [ifCode])
    exact ⟨testTy_of_brif hΓ hcond htest,
      lowerBody_typed thenBody rfl hthen hT₁ fun item hi => hv item (by simp [ifCode, hi]),
      lowerBody_typed elseBody rfl helse hT₂ fun item hi => hv item (by simp [ifCode, hi])⟩
  | .brk, _, _, _, _, _, _, _ | .cont, _, _, _, _, _, _, _ => trivial

theorem lowerBody_typed : ∀ (body : List (Stmt F)) {loops : List LoopFrame} {s s' : LowerState}
    {c : List (Item F)}, s.terminated = false → lowerBody cx loops body s = .ok (c, s') →
    TypesOf cx S varTys valTys s'.locals → (∀ item ∈ c, Item.verify varTys valTys item) →
    S.bodyTyped body
  | [], _, _, _, _, _, _, _, _ => trivial
  | stmt :: rest, loops, s, s', c, hs, h, hT, hv => by
    obtain ⟨code, s₁, code', hstmt, hrest, rfl⟩ := lowerBody_cons hs h
    have hrestEmits := lowerBody_emits rest hrest
    refine ⟨lowerStmt_typed stmt hstmt (hT.mono hrestEmits.locals) fun item hi =>
      hv item (List.mem_append_left _ hi), fun hterm => ?_⟩
    have hs₁ : s₁.terminated = false := (lowerStmt_terminated hs hstmt).trans hterm
    exact lowerBody_typed rest hs₁ hrest hT fun item hi => hv item (List.mem_append_right _ hi)

end

end Lowering

/-! ## Compiled kernels -/

section Compiled
variable {fl : FloatOps F} {k : Kernel F} {g : Compiled F} {cx : LowerCx} {start s : LowerState}
  {body : List (Item F)}

/-- The body of a kernel, lowered from a state without locals and verified, is typed. -/
theorem bodyTyped_of_verified (hbody : lowerBody cx [] k.body start = .ok (body, s))
    (hstart : LocalsOk start) (hnone : start.locals = []) (hrun : start.terminated = false)
    (hin : cx.inputDtype = k.inputDtype) (hout : cx.outputDtype = k.outputDtype)
    (hparam : start.valTys[cx.param]? = some (clType k.inputDtype))
    (hresult : start.varTys[cx.resultVar]? = some (clType k.outputDtype))
    (hv : ∀ item ∈ body, Item.verify s.varTy s.valTy item) (strict : Bool) (x : Val F) :
    (k.sem fl strict x).bodyTyped k.body := by
  have he := lowerBody_emits k.body hbody
  have hd := lowerBody_declares k.body hrun hbody
  have hget : ∀ {l l' : List ClTy} {i : ℕ} {t : ClTy}, l <+: l' → l[i]? = some t →
      l'.getD i .i64 = t := by
    rintro l _ i t ⟨r, rfl⟩ hi
    obtain ⟨hlt, -⟩ := List.getElem?_eq_some_iff.mp hi
    simp [List.getD_eq_getElem?_getD, List.getElem?_append_left hlt, hi]
  refine lowerBody_typed k.body hrun hbody ⟨hin.symm, hout.symm, ?_, ?_, fun {name v d} hl => ⟨?_, ?_⟩⟩ hv
  · rw [hin]
    exact hget he.vals hparam
  · rw [hout]
    exact hget he.vars hresult
  · have hdtype : s.locals.dtypes.lookup name = some d := by
      rw [Locals.lookup_dtypes, Locals.dtype, hl]
      rfl
    rw [hd, hnone] at hdtype
    exact hdtype
  · exact (he.localsOk hstart).typed hl

theorem compile_bodyTyped (h : compile fl k = .ok g) (strict : Bool) (x : Val F) :
    (k.sem fl strict x).bodyTyped k.body := by
  unfold compile at h
  split at h
  · unfold compileSimd at h
    cases hsr : k.singleReturn with
    | none => simp [hsr] at h
    | some value =>
      simp only [hsr, Except.bind_eq_ok] at h
      obtain ⟨vecResult, -, ⟨body, s⟩, hbody, hdef⟩ := h
      obtain ⟨-, -, -, -, hverify⟩ := defineFunction_eq_ok hdef
      exact bodyTyped_of_verified hbody (tailStart_ok k) rfl rfl rfl rfl rfl rfl
        (fun item hi => hverify item (by simp [hi])) strict x
  · simp only [compileScalar, Except.bind_eq_ok] at h
    obtain ⟨⟨body, s⟩, hbody, hdef⟩ := h
    obtain ⟨-, -, -, -, hverify⟩ := defineFunction_eq_ok hdef
    exact bodyTyped_of_verified hbody (scalarStart_ok k) rfl rfl rfl rfl rfl rfl
      (fun item hi => hverify item (by simp [hi])) strict x

end Compiled

end Gilmap
