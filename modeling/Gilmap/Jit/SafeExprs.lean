import Gilmap.Jit.Truncation
import Gilmap.Jit.TypedRuns

/-! # The code of a safe expression

Where Python's evaluation of an expression is safe, the code evaluates it, both arms of every
ternary included, without a trap and to a word, a flag or a float that is Python's number. The
code of a calm expression has some value, and that of one that fails traps.
-/
namespace Gilmap
open Library
variable {F : Type}

/-! ## The code of an expression -/

/-- The walker accepts the expression and the code generator can lower it. -/
def Walker.HasCode (w : Walker) (S : Sem F) (e : PyExpr F) : Prop :=
  ∃ ir d t, Accepts w e ir d ∧ S.ExprTy ir d t

/-- What the code of an expression computes. -/
def Sem.code (S : Sem F) (w : Walker) (ρ : Env F) (e : PyExpr F) : Except Fault (Val F) :=
  match w.expr e with
  | .ok (ir, d) => S.eval ρ ir d
  | .error _ => .error .illTyped

/-- What the code of an operand of a node computes, which converts it to the dtype. -/
def Sem.codeAt (S : Sem F) (w : Walker) (ρ : Env F) (e : PyExpr F) (d : Dtype) : Except Fault (Val F) :=
  S.code w ρ e >>= fun x => coerceVal S.fl x (w.ownDtype e) d

@[simp] theorem coerceVal_self (fl : FloatOps F) (x : Val F) (d : Dtype) :
    coerceVal fl x d d = .ok x := by
  cases d <;> rfl

section Code
variable {w : Walker} {S : Sem F} {ρ : Env F} {e c test body orelse : PyExpr F} {ir l : Expr F}
  {d lt : Dtype} {t : ClTy} {f : Fault}

theorem Accepts.code_eq (h : Accepts w e ir d) : S.code w ρ e = S.eval ρ ir d := by
  rw [Sem.code, h.expr_eq]

theorem Accepts.eval_liftTo (h : Accepts w e l lt) (j : Dtype) :
    S.eval ρ (liftTo l lt j) j = S.codeAt w ρ e j := by
  rw [Sem.codeAt, h.code_eq, h.ownDtype_eq]
  by_cases hj : lt = j
  · subst hj
    rw [liftTo_self]
    cases hx : S.eval ρ l lt with
    | error f => rfl
    | ok x => exact (coerceVal_self S.fl x lt).symm
  · cases lt <;> cases j
    · exact absurd rfl hj
    · rfl
    · rfl
    · exact absurd rfl hj

theorem Accepts.hasCode (h : Accepts w e ir d) (hty : S.ExprTy ir d t) : w.HasCode S e :=
  ⟨ir, d, t, h, hty⟩

/-- An operand that is lifted for its node has code. -/
theorem Accepts.hasCode_lifted {j : Dtype} (h : Accepts w e l lt) (hty : S.ExprTy (liftTo l lt j) j t) :
    w.HasCode S e := by
  obtain ⟨t', hty', -⟩ := exprTy_liftTo hty
  exact h.hasCode hty'

/-- The code has the type that the shape says, or traps. -/
theorem Walker.HasCode.traps (h : w.HasCode S e) (hρ : S.Held ρ) : Traps (w.slotTy e) (S.code w ρ e) := by
  obtain ⟨ir, d, t, hacc, hty⟩ := h
  rw [hacc.code_eq, ← hacc.slotTy_eq hty]
  exact hty.traps hρ

theorem Walker.HasCode.operand (hw : w.Declared S) (h : w.HasCode S e) (hc : c ∈ e.operands) :
    w.HasCode S c := by
  obtain ⟨ir, d, t, hacc, hty⟩ := h
  cases hacc with
  | param | localVar | bool | int | float | ifExp => cases hc
  | unaryOp _ he =>
    cases hty with
    | unary hte _ =>
      obtain rfl := List.mem_singleton.mp hc
      exact he.hasCode hte
  | binOp _ hl hr _ =>
    cases hty with
    | binOp htl htr _ _ =>
      rcases List.mem_pair.mp hc with rfl | rfl
      · exact hl.hasCode_lifted htl
      · exact hr.hasCode_lifted htr
  | compare _ hl hr =>
    cases hty with
    | compare htl htr hmem =>
      have hguess := hl.guess_eq hw hr htl hmem
      rw [hguess] at htl htr
      rcases List.mem_pair.mp hc with rfl | rfl
      · exact hl.hasCode_lifted htl
      · exact hr.hasCode_lifted htr
  | math _ ha =>
    cases hty with
    | mathCall hta =>
      obtain rfl := List.mem_singleton.mp hc
      exact ha.hasCode_lifted hta
  | toInt ha | toFloat ha =>
    obtain rfl := List.mem_singleton.mp hc
    exact ha.hasCode_lifted hty

/-- The code of a node with two operands. -/
theorem Walker.HasCode.binOp {left right : PyExpr F} {op : PyBinOp}
    (h : w.HasCode S (.binOp left op right)) : ∃ irOp, binOpMap op = some irOp ∧
      w.ownDtype (.binOp left op right) = (w.ownDtype left).join (w.ownDtype right) ∧
      ∀ ρ, S.code w ρ (.binOp left op right) =
        let d := (w.ownDtype left).join (w.ownDtype right)
        S.codeAt w ρ left d >>= fun x => S.codeAt w ρ right d >>= fun y => evalBinOp S.fl irOp x y d := by
  obtain ⟨ir, d, t, hacc, hty⟩ := h
  have hown := hacc.ownDtype_eq
  have hcode := fun ρ => hacc.code_eq (S := S) (ρ := ρ)
  cases hacc with
  | binOp hop hl hr _ =>
    rw [← hl.ownDtype_eq, ← hr.ownDtype_eq] at hown
    refine ⟨_, hop, hown, fun ρ => ?_⟩
    simp only [hcode, Sem.eval, hl.eval_liftTo, hr.eval_liftTo, hl.ownDtype_eq, hr.ownDtype_eq]

theorem Walker.HasCode.compare {left right : PyExpr F} {op : PyCmpOp} (hw : w.Declared S)
    (h : w.HasCode S (.compare left [op] [right])) : ∃ irOp, cmpMap op = some irOp ∧
      ∀ ρ, S.code w ρ (.compare left [op] [right]) =
        let d := (w.ownDtype left).join (w.ownDtype right)
        S.codeAt w ρ left d >>= fun x => S.codeAt w ρ right d >>= fun y => evalCmpOp S.fl irOp x y d := by
  obtain ⟨ir, d, t, hacc, hty⟩ := h
  have hcode := fun ρ => hacc.code_eq (S := S) (ρ := ρ)
  cases hacc with
  | compare hop hl hr =>
    cases hty with
    | compare htl htr hmem =>
      have hguess := hl.guess_eq hw hr htl hmem
      refine ⟨_, hop, fun ρ => ?_⟩
      simp only [hcode, Sem.eval, hguess, hl.eval_liftTo, hr.eval_liftTo, hl.ownDtype_eq, hr.ownDtype_eq]

/-- The code looks at the truncated test. -/
theorem Accepts.test_code (hw : w.Declared S) (h : Accepts w e ir d) (hty : S.TestTy ir) :
    w.HasCode S (w.truncate e .i64) ∧ w.ownDtype (w.truncate e .i64) = .i64 ∧
      ∀ ρ, S.eval ρ ir .i64 = S.code w ρ (w.truncate e .i64) := by
  obtain ⟨t, ht, hmem⟩ := hty
  obtain ⟨ir', hir', -⟩ := h.truncates hw ht hmem fun _ => rfl
  refine ⟨hir'.accepts.hasCode hir'.typed, hir'.accepts.ownDtype_eq, fun ρ => ?_⟩
  rw [hir'.accepts.code_eq, hir'.eval ρ]

/-- The code of a ternary evaluates the truncated test and both arms. -/
theorem Walker.HasCode.ifExp (hw : w.Declared S) (h : w.HasCode S (.ifExp test body orelse)) :
    w.HasCode S (w.truncate test .i64) ∧ w.ownDtype (w.truncate test .i64) = .i64 ∧
      w.HasCode S body ∧ w.HasCode S orelse ∧
      w.ownDtype (.ifExp test body orelse) = (w.ownDtype body).join (w.ownDtype orelse) ∧
      ∀ ρ, S.code w ρ (.ifExp test body orelse) =
        let d := (w.ownDtype body).join (w.ownDtype orelse)
        S.code w ρ (w.truncate test .i64) >>= fun c =>
          S.codeAt w ρ body d >>= fun x => S.codeAt w ρ orelse d >>= fun y => c.select x y := by
  obtain ⟨ir, d, t, hacc, hty⟩ := h
  have hown := hacc.ownDtype_eq
  have hcode := fun ρ => hacc.code_eq (S := S) (ρ := ρ)
  cases hacc with
  | ifExp ht hy hn =>
    cases hty with
    | ifExpr htc hmem hty htn =>
      obtain ⟨hcodeT, hownT, htest⟩ := ht.test_code hw ⟨_, htc, hmem⟩
      rw [← hy.ownDtype_eq, ← hn.ownDtype_eq] at hown
      refine ⟨hcodeT, hownT, hy.hasCode_lifted hty, hn.hasCode_lifted htn, hown, fun ρ => ?_⟩
      simp only [hcode, Sem.eval, hy.eval_liftTo, hn.eval_liftTo, hy.ownDtype_eq, hn.ownDtype_eq, htest]

/-! ### Nodes -/

/-- **The code of a node** is its instruction on what the code of its operands computes. -/
theorem Walker.HasCode.node_eq (hw : w.Declared S) (h : w.HasCode S e) (hnode : e.isNode = true)
    {xs : List (Val F)} (hxs : List.Forall₂ (fun c x => S.code w ρ c = .ok x) e.operands xs) :
    S.code w ρ e = w.instr S.fl e xs := by
  have hcode := h
  obtain ⟨ir, d, t, hacc, -⟩ := h
  cases hacc with
  | param | localVar | ifExp => cases hnode
  | bool | int | float =>
    cases hxs
    rw [Accepts.code_eq (by constructor)]
    rfl
  | @unaryOp op irOp e ir d hop he =>
    cases hxs with
    | cons hx hxs =>
      cases hxs
      rw [he.code_eq] at hx
      rw [(Accepts.unaryOp hop he).code_eq, Sem.eval, hx]
      simp only [Walker.instr, hop, he.ownDtype_eq]
      rfl
  | binOp hop _ _ _ =>
    obtain ⟨irOp, hop', -, heq⟩ := hcode.binOp
    cases hxs with
    | cons hx hxs =>
      cases hxs with
      | cons hy hxs =>
        cases hxs
        simp only [heq, Sem.codeAt, hx, hy, Walker.instr, hop']
        rfl
  | compare hop _ _ =>
    obtain ⟨irOp, hop', heq⟩ := hcode.compare hw
    cases hxs with
    | cons hx hxs =>
      cases hxs with
      | cons hy hxs =>
        cases hxs
        simp only [heq, Sem.codeAt, hx, hy, Walker.instr, hop']
        rfl
  | math hfn ha =>
    cases hxs with
    | cons hx hxs =>
      cases hxs
      rw [(Accepts.math hfn ha).code_eq, Sem.eval, ha.eval_liftTo, Sem.codeAt, hx]
      simp only [Walker.instr, callInstr, hfn]
      rfl
  | toInt ha =>
    cases hxs with
    | cons hx hxs =>
      cases hxs
      rw [ha.toInt.code_eq, ha.eval_liftTo, Sem.codeAt, hx]
      rfl
  | toFloat ha =>
    cases hxs with
    | cons hx hxs =>
      cases hxs
      rw [ha.toFloat.code_eq, ha.eval_liftTo, Sem.codeAt, hx]
      rfl

theorem Sem.codeAt_error (h : S.code w ρ e = .error f) (d : Dtype) : S.codeAt w ρ e d = .error f := by
  rw [Sem.codeAt, h]
  rfl

/-- A computation of two parts of which one fails. -/
theorem exists_error_bind₂ {α β γ : Type} {x : Except Fault α} {y : Except Fault β}
    (h : (∃ f, x = .error f) ∨ ∃ f, y = .error f) (k : α → β → Except Fault γ) :
    ∃ f, (x >>= fun a => y >>= fun b => k a b) = .error f := by
  cases x with
  | error f => exact ⟨f, rfl⟩
  | ok a =>
    rcases h with ⟨f, h⟩ | ⟨f, rfl⟩
    · cases h
    · exact ⟨f, rfl⟩

/-- A ternary fails with an arm. -/
theorem exists_error_arms {α β : Type} {x y : Except Fault α}
    (h : (∃ f, x = .error f) ∨ ∃ f, y = .error f) (c : Except Fault β) (k : β → α → α → Except Fault α) :
    ∃ f, (c >>= fun b => x >>= fun v => y >>= fun v' => k b v v') = .error f := by
  cases c with
  | error f => exact ⟨f, rfl⟩
  | ok b => exact exists_error_bind₂ h _

/-- A node fails with an operand. -/
theorem Walker.HasCode.node_error (hw : w.Declared S) (h : w.HasCode S e) (hnode : e.isNode = true)
    (hc : c ∈ e.operands) (hf : S.code w ρ c = .error f) : ∃ f', S.code w ρ e = .error f' := by
  have hcode := h
  obtain ⟨ir, d, t, hacc, -⟩ := h
  cases hacc with
  | param | localVar | bool | int | float | ifExp => cases hc
  | unaryOp hop he =>
    obtain rfl := List.mem_singleton.mp hc
    rw [he.code_eq] at hf
    exact ⟨f, by rw [(Accepts.unaryOp hop he).code_eq, Sem.eval, hf]; rfl⟩
  | @binOp _ _ left right _ _ _ _ _ _ _ _ =>
    obtain ⟨irOp, -, -, heq⟩ := hcode.binOp
    rw [heq]
    refine exists_error_bind₂ ?_ _
    rcases List.mem_pair.mp hc with rfl | rfl
    · exact .inl ⟨f, Sem.codeAt_error hf _⟩
    · exact .inr ⟨f, Sem.codeAt_error hf _⟩
  | compare _ _ _ =>
    obtain ⟨irOp, -, heq⟩ := hcode.compare hw
    rw [heq]
    refine exists_error_bind₂ ?_ _
    rcases List.mem_pair.mp hc with rfl | rfl
    · exact .inl ⟨f, Sem.codeAt_error hf _⟩
    · exact .inr ⟨f, Sem.codeAt_error hf _⟩
  | math hfn ha =>
    obtain rfl := List.mem_singleton.mp hc
    exact ⟨f, by rw [(Accepts.math hfn ha).code_eq, Sem.eval, ha.eval_liftTo, Sem.codeAt_error hf]; rfl⟩
  | toInt ha =>
    obtain rfl := List.mem_singleton.mp hc
    exact ⟨f, by rw [ha.toInt.code_eq, ha.eval_liftTo, Sem.codeAt_error hf]⟩
  | toFloat ha =>
    obtain rfl := List.mem_singleton.mp hc
    exact ⟨f, by rw [ha.toFloat.code_eq, ha.eval_liftTo, Sem.codeAt_error hf]⟩

end Code

/-! ## Instructions that do not trap -/

section Instructions
variable {w : Walker} {e : PyExpr F} {x y : Val F} {d : Dtype} (fl : FloatOps F)

theorem untrapped_evalUnary (op : UnaryOp) (x : Val F) (d : Dtype) : Untrapped (evalUnary fl op x d) := by
  cases op <;> cases d <;> cases x <;> simp [Untrapped, evalUnary, Val.ineg, Val.fneg]

theorem untrapped_evalCmpOp (op : CmpOp) (x y : Val F) (d : Dtype) :
    Untrapped (evalCmpOp fl op x y d) := by
  cases d <;> cases x <;> cases y <;> simp [Untrapped, evalCmpOp, Val.icmp, Val.fcmp]

theorem untrapped_callLibm (fn : LibmFn) (x : Val F) : Untrapped (x.callLibm fl fn) := by
  cases x <;> simp [Untrapped, Val.callLibm]

/-- An operation that is no division of words. -/
theorem untrapped_evalBinOp {op : BinOp} (x y : Val F)
    (h : d = .f64 ∨ op ∉ [BinOp.div, .floorDiv, .mod]) : Untrapped (evalBinOp fl op x y d) := by
  cases op <;> cases d <;>
    first
      | exact absurd h (by decide)
      | cases x <;> cases y <;>
          simp [Untrapped, evalBinOp, Val.intBin, Val.floatBin, Val.callPow]

/-- No operand is converted from a float to a word for its node. -/
theorem untrapped_lift (x : Val F) (a b : Dtype) : Untrapped (coerceVal fl x a (a.join b)) ∧
    Untrapped (coerceVal fl x b (a.join b)) := by
  constructor <;> apply untrapped_coerceVal <;> cases a <;> cases b <;> simp [Dtype.join]

theorem binOpMap_quotient {op : PyBinOp} {irOp : BinOp} (h : binOpMap op = some irOp) :
    irOp ∈ [BinOp.div, .floorDiv, .mod] ↔ op.isQuotient = true := by
  cases op <;> cases h <;> decide

theorem untrapped_callInstr (func : PyExpr F) (x : Val F)
    (h : func = .name "int" → d = .i64) : Untrapped (callInstr fl d x func) := by
  unfold callInstr
  split
  · exact untrapped_coerceVal x (.inr (h rfl))
  · exact untrapped_coerceVal x (.inl rfl)
  · split
    · exact (untrapped_coerceVal x (.inl rfl)).bind fun z => untrapped_callLibm fl _ z
    · simp [Untrapped]
  · simp [Untrapped]

theorem Walker.untrapped_instr (h : w.isTotal e = true) (xs : List (Val F)) :
    Untrapped (w.instr fl e xs) := by
  unfold instr
  split
  case h_4 op operand x =>
    split
    · exact untrapped_evalUnary fl _ x _
    · simp [Untrapped]
  case h_5 left op right x y =>
    split
    · rename_i irOp hop
      refine (untrapped_lift fl x _ _).1.bind fun a => (untrapped_lift fl y _ _).2.bind fun b => ?_
      apply untrapped_evalBinOp
      simp only [isTotal, Bool.or_eq_true, decide_eq_true_eq, Bool.not_eq_true'] at h
      apply h.imp_right
      intro hq hmem
      rw [(binOpMap_quotient hop).mp hmem] at hq
      cases hq
    · simp [Untrapped]
  case h_6 left op right x y =>
    split
    · exact (untrapped_lift fl x _ _).1.bind fun a => (untrapped_lift fl y _ _).2.bind fun b =>
        untrapped_evalCmpOp fl _ a b _
    · simp [Untrapped]
  case h_7 func arg x =>
    apply untrapped_callInstr
    rintro rfl
    simpa [isTotal] using h
  all_goals simp [Untrapped]

end Instructions

/-! ### Divisions -/

section Divisions
variable {py : PyFloats F} {op : BinOp} {v : PyVal F} {y : Val F} {n : ℤ}

theorem untrapped_divBits {w : ℕ} (a : BitVec w) {b : BitVec w} (hb : b.toInt = n) (h0 : n ≠ 0)
    (g : BitVec w → Val F) : Untrapped ((sremBits a b).map g) ∧
      (n ≠ -1 → Untrapped ((sdivBits a b).map g)) := by
  have hb0 : b ≠ 0 := fun h => h0 (by rw [← hb, h]; exact BitVec.toInt_zero)
  have hrem : sremBits a b = .ok (a.srem b) := by simp only [sremBits, hb0, if_false]
  refine ⟨by simp [Untrapped, hrem, Except.map], fun h1 => ?_⟩
  have hovf : ¬ (a = BitVec.intMin w ∧ b = BitVec.allOnes w) := by
    rintro ⟨-, h⟩
    rcases Nat.eq_zero_or_pos w with rfl | hw
    · exact h0 (by rw [← hb]; simp [BitVec.toInt_of_zero_length])
    · exact h1 (by rw [← hb, h, BitVec.toInt_allOnes, if_pos hw])
  have hdiv : sdivBits a b = .ok (a.sdiv b) := by simp only [sdivBits, hb0, if_false, hovf]
  simp [Untrapped, hdiv, Except.map]

/-- A division by a number other than zero and minus one. -/
theorem untrapped_quotient (fl : FloatOps F) (x : Val F) (hy : py.Stands .i64 v y)
    (hdiv : ∀ n, py.IsInt v n → n ≠ 0 ∧ (n = -1 → op = .mod)) : Untrapped (evalBinOp fl op x y .i64) := by
  have hwords : ∀ {w : ℕ} (a b : BitVec w) (g : BitVec w → Val F), py.IsInt v b.toInt →
      Untrapped ((sremBits a b).map g) ∧ (op ≠ .mod → Untrapped ((sdivBits a b).map g)) := by
    intro w a b g hb
    obtain ⟨h0, h1⟩ := hdiv _ hb
    obtain ⟨hrem, hquot⟩ := untrapped_divBits a rfl h0 g
    exact ⟨hrem, fun hop => hquot fun h => hop (h1 h)⟩
  by_cases hop : op ∈ [BinOp.div, .floorDiv, .mod]
  · simp only [List.mem_cons, List.not_mem_nil, or_false] at hop
    cases hy with
    | @word _ _ b hv hb =>
      subst hb
      cases x with
      | i64 a =>
        rcases hop with rfl | rfl | rfl
        · exact (hwords a b .i64 hv).2 (by decide)
        · exact (hwords a b .i64 hv).2 (by decide)
        · exact (hwords a b .i64 hv).1
      | _ => rcases hop with rfl | rfl | rfl <;> simp [Untrapped, evalBinOp, Val.sdiv, Val.srem]
    | @flag _ _ b hv hb =>
      subst hb
      cases x with
      | i8 a =>
        rcases hop with rfl | rfl | rfl
        · exact (hwords a b .i8 hv).2 (by decide)
        · exact (hwords a b .i8 hv).2 (by decide)
        · exact (hwords a b .i8 hv).1
      | _ => rcases hop with rfl | rfl | rfl <;> simp [Untrapped, evalBinOp, Val.sdiv, Val.srem]
  · exact untrapped_evalBinOp fl x y (.inr hop)

/-- A division by zero. -/
theorem failing_quotient (fl : FloatOps F) (x : Val F) (hop : op ∈ [BinOp.div, .floorDiv, .mod])
    (hy : py.Stands .i64 v y) (hzero : ∀ n, py.IsInt v n → n = 0) :
    ∃ f, evalBinOp fl op x y .i64 = .error f := by
  simp only [List.mem_cons, List.not_mem_nil, or_false] at hop
  cases hy with
  | @word _ n b hv hb | @flag _ n b hv hb =>
    obtain rfl : b = 0 := toInt_eq_zero_iff.mp (hb.trans (hzero n hv))
    cases x <;> rcases hop with rfl | rfl | rfl <;> exact ⟨_, rfl⟩

end Divisions

/-! ## What the code holds -/

/-- What the frame knows of the argument and the locals is what the code holds, and the other
variables have their types. -/
structure SafeFrame.HeldBy (fr : SafeFrame F) (py : PyFloats F) (S : Sem F) (ρ : Env F) : Prop where
  held : S.Held ρ
  arg : ∀ v, fr.arg = some v → py.Stands S.inputDtype v S.param
  locals : ∀ name v, fr.locals name = some v →
    ∃ d x, S.locals name = some d ∧ S.readLocal ρ name = .ok x ∧ py.Stands d v x

/-- The code of the walker's expressions runs on what the frame tells of. -/
structure SafeFrame.Tracks (fr : SafeFrame F) (py : PyFloats F) (w : Walker) (S : Sem F) (ρ : Env F) :
    Prop where
  fl : S.fl = py.fl
  declared : w.Declared S
  param : w.param = fr.param
  heldBy : fr.HeldBy py S ρ

section Exprs
variable {py : PyFloats F} {w : Walker} {S : Sem F} {ρ : Env F} {fr : SafeFrame F} {e : PyExpr F}
  {x : Val F} {v : PyVal F} {id : String}

/-- The code of a name reads its variable. -/
theorem SafeFrame.Tracks.code_name (h : fr.Tracks py w S ρ) (hcode : w.HasCode S (.name id)) :
    ∃ x, S.code w ρ (.name id) = .ok x ∧
      ∀ v, fr.view.vals id = some v → py.Stands (w.ownDtype (F := F) (.name id)) v x := by
  obtain ⟨ir, d, t, hacc, -⟩ := hcode
  rw [hacc.code_eq, hacc.ownDtype_eq]
  cases hacc with
  | param =>
    rw [h.declared.input]
    refine ⟨S.param, by simp [Sem.eval], fun v hv => ?_⟩
    simp only [SafeFrame.view, h.param, if_true] at hv
    exact h.heldBy.arg v hv
  | localVar hne hl =>
    have hS := h.declared.locals id d hl
    obtain ⟨x, hx, -⟩ := h.heldBy.held.read hS
    have heval : S.eval ρ (.localVar id) d = .ok x := by
      simp only [Sem.eval, hS, hx]
      exact coerceVal_self _ _ _
    refine ⟨x, heval, fun v hv => ?_⟩
    rw [h.param] at hne
    simp only [SafeFrame.view, hne, if_false] at hv
    obtain ⟨d', y, hd', hy, hrep⟩ := h.heldBy.locals id v hv
    rw [hS] at hd'
    cases hd'
    rw [hx] at hy
    cases hy
    exact hrep

theorem exists_forall₂ {α β : Type} {R : α → β → Prop} {as : List α} (h : ∀ a ∈ as, ∃ b, R a b) :
    ∃ bs, List.Forall₂ R as bs := by
  induction as with
  | nil => exact ⟨[], .nil⟩
  | cons a as ih =>
    obtain ⟨b, hb⟩ := h a List.mem_cons_self
    obtain ⟨bs, hbs⟩ := ih fun a' ha' => h a' (List.mem_cons_of_mem a ha')
    exact ⟨b :: bs, .cons hb hbs⟩

theorem Walker.HasCode.ty_eq (h : w.HasCode S e) (hρ : S.Held ρ) (hx : S.code w ρ e = .ok x) :
    x.ty = w.slotTy e := by
  have htraps := h.traps hρ
  rw [hx] at htraps
  cases htraps with
  | ok hty => exact hty

/-- A number of dtype `i64` decides a test by whether it is zero. -/
theorem PyFloats.Stands.truthy {b : Bool} (h : py.Stands .i64 v x)
    (hb : ∀ n, py.IsInt v n → b = decide (n ≠ 0)) : x.truthy = .ok b := by
  cases h with
  | @word _ n a hv ha | @flag _ n a hv ha =>
    rw [hb n hv, ← ha, Val.truthy]
    congr 1
    rw [Bool.eq_iff_iff]
    simp [toInt_eq_zero_iff]

theorem Walker.slotTy_mem_i64 (h : w.ownDtype e = .i64) : w.slotTy e ∈ laneTys .i64 := by
  rw [slotTy, h]
  cases e.isFlag <;> simp [laneTys, clType]

/-- The code of an arm is converted to the dtype of the ternary without a trap. -/
theorem Walker.HasCode.codeAt_ok (hx : S.code w ρ e = .ok x) (h : w.HasCode S e)
    (hρ : S.Held ρ) {d : Dtype} (hd : d = w.ownDtype e ∨ d = .f64) : ∃ z, S.codeAt w ρ e d = .ok z := by
  rw [Sem.codeAt, hx]
  have hty := h.ty_eq hρ hx
  rcases hd with rfl | rfl
  · exact ⟨x, coerceVal_self _ _ _⟩
  · cases hown : w.ownDtype e with
    | f64 => exact ⟨x, rfl⟩
    | i64 =>
      have hmem := hty ▸ Walker.slotTy_mem_i64 hown
      cases x <;> simp [Val.ty, laneTys] at hmem <;> exact ⟨_, rfl⟩

theorem Dtype.lifts_left (a b : Dtype) : a.join b = a ∨ a.join b = .f64 := by
  cases a <;> cases b <;> simp [Dtype.join]

theorem Dtype.lifts_right (a b : Dtype) : a.join b = b ∨ a.join b = .f64 := by
  cases a <;> cases b <;> simp [Dtype.join]

/-! ## All expressions -/

/-- The code of a node whose operands have Python's numbers. -/
theorem PyFloats.exists_operands (hcode : w.HasCode S e) (htr : fr.Tracks py w S ρ)
    (hnode : e.isNode = true)
    (hops : ∀ c ∈ e.operands, ∃ x, S.code w ρ c = .ok x ∧ py.Holds w fr.view c x) :
    ∃ xs, List.Forall₂ (py.Holds w fr.view) e.operands xs ∧ S.code w ρ e = w.instr py.fl e xs := by
  obtain ⟨xs, hxs⟩ := exists_forall₂ hops
  refine ⟨xs, hxs.imp fun c x hcx => hcx.2, ?_⟩
  rw [← htr.fl]
  exact hcode.node_eq htr.declared hnode (hxs.imp fun c x hcx => hcx.1)

/-- Python's number for an operand that is converted. -/
theorem PyFloats.KeptAt.codeAt {d : Dtype} (hkept : py.KeptAt w fr.view e d) (htr : fr.Tracks py w S ρ)
    (hx : S.code w ρ e = .ok x) (hholds : py.Holds w fr.view e x) :
    ∃ v z, py.eval fr.view e = .ok v ∧ S.codeAt w ρ e d = .ok z ∧ py.Stands d v z := by
  obtain ⟨v, z, hv, hz, hstands⟩ := hkept x hholds
  refine ⟨v, z, hv, ?_, hstands⟩
  rw [Sem.codeAt, hx, htr.fl]
  exact hz

/-- The value of a ternary. -/
theorem Walker.HasCode.select {test body orelse : PyExpr F} (hw : w.Declared S)
    (h : w.HasCode S (.ifExp test body orelse)) {c x y : Val F} {b : Bool}
    (hc : S.code w ρ (w.truncate test .i64) = .ok c) (hb : c.truthy = .ok b)
    (hx : S.codeAt w ρ body ((w.ownDtype body).join (w.ownDtype orelse)) = .ok x)
    (hy : S.codeAt w ρ orelse ((w.ownDtype body).join (w.ownDtype orelse)) = .ok y) :
    S.code w ρ (.ifExp test body orelse) = .ok (if b then x else y) := by
  obtain ⟨-, -, -, -, -, heq⟩ := h.ifExp hw
  simp only [heq, hc, hx, hy]
  show c.select x y = _
  rw [Val.select, hb]
  rfl

mutual

/-- **The code of a safe expression has Python's number.** -/
theorem PyFloats.Safe.code : ∀ {e : PyExpr F}, py.Safe w fr.view e → fr.Tracks py w S ρ →
    w.HasCode S e → ∃ x, S.code w ρ e = .ok x ∧ py.Holds w fr.view e x
  | _, .name (v := v) hv, htr, hcode => by
    obtain ⟨x, hx, hstands⟩ := htr.code_name hcode
    exact ⟨x, hx, hcode.ty_eq htr.heldBy.held hx, v, eval_name hv, hstands v hv⟩
  | _, .node hnode hops hv hfollows, htr, hcode => by
    obtain ⟨xs, hxs, heq⟩ := exists_operands hcode htr hnode fun c hc =>
      (hops c hc).code htr (hcode.operand htr.declared hc)
    obtain ⟨z, hz, hstands⟩ := hfollows xs hxs
    have hx := heq.trans hz
    exact ⟨z, hx, hcode.ty_eq htr.heldBy.held hx, _, hv, hstands⟩
  | .ifExp test body orelse, .ifExp (b := b) ht hb htest harm hkept hother, htr, hcode => by
    have hheld := htr.heldBy.held
    obtain ⟨hcodeT, hownT, hcodeY, hcodeN, hown, -⟩ := hcode.ifExp htr.declared
    obtain ⟨c, hc, hdecides⟩ := htest.code htr hcodeT hownT
    -- the selected arm has Python's number, the other one some value
    have hcodeArm : w.HasCode S (if b then body else orelse) := by cases b <;> assumption
    have hcodeOther : w.HasCode S (if b then orelse else body) := by cases b <;> assumption
    obtain ⟨x, hx, hholdsX⟩ := harm.code htr hcodeArm
    obtain ⟨y, hy⟩ := hother.code htr hcodeOther
    obtain ⟨v, z, hv, hz, hstands⟩ := hkept.codeAt htr hx hholdsX
    have hsel : S.code w ρ (.ifExp test body orelse) = .ok z := by
      cases b with
      | true =>
        obtain ⟨y', hy'⟩ := hcodeN.codeAt_ok hy hheld (Dtype.lifts_right _ _)
        exact hcode.select htr.declared hc hdecides hz hy'
      | false =>
        obtain ⟨y', hy'⟩ := hcodeY.codeAt_ok hy hheld (Dtype.lifts_left _ _)
        exact hcode.select htr.declared hc hdecides hy' hz
    exact ⟨z, hsel, hcode.ty_eq hheld hsel, v, (eval_ifExp ht hb).trans hv, hown ▸ hstands⟩

/-- The code decides by a number of Python's, or by what an instruction makes of some. -/
theorem PyFloats.Decides.code : ∀ {b : Bool} {e : PyExpr F}, py.Decides w fr.view b e →
    fr.Tracks py w S ρ → w.HasCode S e → w.ownDtype e = .i64 →
    ∃ x, S.code w ρ e = .ok x ∧ x.truthy = .ok b
  | _, _, .safe hsafe hv hb, htr, hcode, hown => by
    obtain ⟨x, hx, hholds⟩ := hsafe.code htr hcode
    obtain ⟨v', hv', hstands⟩ := hholds.stands
    rw [hv] at hv'
    cases hv'
    rw [hown] at hstands
    exact ⟨x, hx, hstands.truthy hb⟩
  | _, _, .node hnode hops hdecides, htr, hcode, _ => by
    obtain ⟨xs, hxs, heq⟩ := exists_operands hcode htr hnode fun c hc =>
      (hops c hc).code htr (hcode.operand htr.declared hc)
    rw [heq]
    exact hdecides xs hxs
  | b, .ifExp test body orelse, .ifExp (c := c) htest harm hother, htr, hcode, hown => by
    obtain ⟨hcodeT, hownT, hcodeY, hcodeN, hjoin, -⟩ := hcode.ifExp htr.declared
    obtain ⟨hownY, hownN⟩ := Dtype.join_eq_i64.mp (hjoin.symm.trans hown)
    obtain ⟨u, hu, hdecides⟩ := htest.code htr hcodeT hownT
    have hcodeArm : w.HasCode S (if c then body else orelse) := by cases c <;> assumption
    have hcodeOther : w.HasCode S (if c then orelse else body) := by cases c <;> assumption
    have hownArm : w.ownDtype (if c then body else orelse) = .i64 := by cases c <;> assumption
    obtain ⟨x, hx, hxb⟩ := harm.code htr hcodeArm hownArm
    obtain ⟨y, hy⟩ := hother.code htr hcodeOther
    have hat : ∀ {e : PyExpr F} {z : Val F}, w.ownDtype e = .i64 → S.code w ρ e = .ok z →
        S.codeAt w ρ e ((w.ownDtype body).join (w.ownDtype orelse)) = .ok z := by
      intro e z he hz
      rw [Sem.codeAt, hz, he, hownY, hownN]
      rfl
    refine ⟨x, ?_, hxb⟩
    cases c with
    | true => exact hcode.select htr.declared hu hdecides (hat hownY hx) (hat hownN hy)
    | false => exact hcode.select htr.declared hu hdecides (hat hownY hy) (hat hownN hx)

/-- The code of a calm expression has some value. -/
theorem PyFloats.Calm.code : ∀ {e : PyExpr F}, py.Calm w fr.view e → fr.Tracks py w S ρ →
    w.HasCode S e → ∃ x, S.code w ρ e = .ok x
  | _, .safe hsafe, htr, hcode => by
    obtain ⟨x, hx, -⟩ := hsafe.code htr hcode
    exact ⟨x, hx⟩
  | _, .name, htr, hcode => by
    obtain ⟨x, hx, -⟩ := htr.code_name hcode
    exact ⟨x, hx⟩
  | _, .total hnode hops htotal, htr, hcode => by
    obtain ⟨xs, hxs⟩ := exists_forall₂ fun c hc => (hops c hc).code htr (hcode.operand htr.declared hc)
    have htraps := hcode.traps htr.heldBy.held
    rw [hcode.node_eq htr.declared hnode hxs] at htraps ⊢
    obtain ⟨x, hx, -⟩ := htraps.exists_ok (w.untrapped_instr S.fl htotal xs)
    exact ⟨x, hx⟩
  | _, .runs hnode hops hruns, htr, hcode => by
    obtain ⟨xs, hxs, heq⟩ := exists_operands hcode htr hnode fun c hc =>
      (hops c hc).code htr (hcode.operand htr.declared hc)
    rw [heq]
    exact hruns xs hxs
  | .binOp left op right, .quotient hleft hright hv hdiv, htr, hcode => by
    obtain ⟨x, hx⟩ := hleft.code htr (hcode.operand htr.declared (by simp [PyExpr.operands]))
    obtain ⟨y, hy, hholds⟩ := hright.code htr (hcode.operand htr.declared (by simp [PyExpr.operands]))
    have htraps := hcode.traps htr.heldBy.held
    obtain ⟨irOp, hop, -, heq⟩ := hcode.binOp
    have huntrapped : Untrapped (S.code w ρ (.binOp left op right)) := by
      simp only [heq, Sem.codeAt, hx, hy]
      rcases Dtype.join_cases (w.ownDtype left) (w.ownDtype right) with hf | ⟨hl, hr⟩
      · exact (untrapped_lift S.fl x _ _).1.bind fun a => (untrapped_lift S.fl y _ _).2.bind fun b =>
          untrapped_evalBinOp S.fl a b (.inl hf)
      · obtain ⟨v', hv', hstands⟩ := hholds.stands
        rw [hv] at hv'
        cases hv'
        rw [hr] at hstands
        rw [hl, hr]
        refine untrapped_quotient S.fl x hstands fun n hn => (hdiv n hn).imp_right fun h h1 => ?_
        obtain rfl := h h1
        cases hop
        rfl
    obtain ⟨z, hz, -⟩ := htraps.exists_ok huntrapped
    exact ⟨z, hz⟩
  | .ifExp test body orelse, .ifExp hcalm hbody horelse, htr, hcode => by
    have hheld := htr.heldBy.held
    obtain ⟨hcodeT, hownT, hcodeY, hcodeN, -, -⟩ := hcode.ifExp htr.declared
    obtain ⟨c, hc⟩ := hcalm.code htr hcodeT
    obtain ⟨b, hb⟩ := truthy_of_lane (hcodeT.ty_eq hheld hc ▸ Walker.slotTy_mem_i64 hownT)
    obtain ⟨x, hx⟩ := hbody.code htr hcodeY
    obtain ⟨y, hy⟩ := horelse.code htr hcodeN
    obtain ⟨x', hx'⟩ := hcodeY.codeAt_ok hx hheld (Dtype.lifts_left _ _)
    obtain ⟨y', hy'⟩ := hcodeN.codeAt_ok hy hheld (Dtype.lifts_right _ _)
    exact ⟨_, hcode.select htr.declared hc hb hx' hy'⟩

end

/-- The code of an expression that fails traps. -/
theorem PyFloats.Fails.code (h : py.Fails w fr.view e) (htr : fr.Tracks py w S ρ)
    (hcode : w.HasCode S e) : ∃ f, S.code w ρ e = .error f := by
  induction h with
  | operand hnode hc _ ih =>
    obtain ⟨f, hf⟩ := ih (hcode.operand htr.declared hc)
    exact hcode.node_error htr.declared hnode hc hf
  | node hnode hops hfails =>
    obtain ⟨xs, hxs, heq⟩ := exists_operands hcode htr hnode fun c hc =>
      (hops c hc).code htr (hcode.operand htr.declared hc)
    rw [heq]
    exact hfails xs hxs
  | @zero op left right v hquot hl hright hv hzero hr =>
    obtain ⟨irOp, hop, -, heq⟩ := hcode.binOp
    cases hx : S.code w ρ left with
    | error f => exact hcode.node_error htr.declared rfl (by simp [PyExpr.operands]) hx
    | ok x =>
      obtain ⟨y, hy, hholds⟩ := hright.code htr (hcode.operand htr.declared (by simp [PyExpr.operands]))
      obtain ⟨v', hv', hstands⟩ := hholds.stands
      rw [hv] at hv'
      cases hv'
      rw [hr] at hstands
      simp only [heq, Sem.codeAt, hx, hy, hl, hr]
      exact failing_quotient S.fl x ((binOpMap_quotient hop).mpr hquot) hstands hzero
  | test _ ih =>
    obtain ⟨hcodeT, -, -, -, -, heq⟩ := hcode.ifExp htr.declared
    obtain ⟨f, hf⟩ := ih hcodeT
    exact ⟨f, by rw [heq, hf]; rfl⟩
  | body _ ih =>
    obtain ⟨-, -, hcodeY, -, -, heq⟩ := hcode.ifExp htr.declared
    obtain ⟨f, hf⟩ := ih hcodeY
    exact heq ρ ▸ exists_error_arms (.inl ⟨f, Sem.codeAt_error hf _⟩) _ _
  | orelse _ ih =>
    obtain ⟨-, -, -, hcodeN, -, heq⟩ := hcode.ifExp htr.declared
    obtain ⟨f, hf⟩ := ih hcodeN
    exact heq ρ ▸ exists_error_arms (.inr ⟨f, Sem.codeAt_error hf _⟩) _ _

end Exprs

end Gilmap
