import Gilmap.Jit.ScalarCorrect
import Gilmap.Library.Word
import Gilmap.Python.Types

/-! # Integer arithmetic in the `i64` lane

Expressions of integers, evaluated by Python and by the code of the `i64` lane. Where every
result fits, they agree on each part of an expression unless a quotient is rounded.
-/
namespace Gilmap
open Library
variable {F : Type}

def isIntOp : PyBinOp → Bool
  | .add | .sub | .mult | .floorDiv | .mod => true
  | _ => false

/-- Trees of the parameter, integer literals and locals by `+`, `-`, `*`, `//`, `%` and signs. -/
def isIntTree (w : Walker) : PyExpr F → Bool
  | .name id => w.tag? id = some .i64
  | .constant (.int _) => true
  | .unaryOp op operand => (unaryMap op).isSome && isIntTree w operand
  | .binOp left op right => isIntOp op && isIntTree w left && isIntTree w right
  | _ => false

/-- The value is an integer that fits, and the code's value is its word. -/
def HoldsInt (v : PyVal F) (x : Val F) : Prop := ∃ n b, v = .int n ∧ x = .i64 b ∧ b.toInt = n

/-- The parameter and the locals of the `i64` lane hold Python's integers. -/
structure HoldsInts (S : Sem F) (ρ : Env F) (w : Walker) (fr : PyFrame F) : Prop where
  lane : S.inputDtype = w.inputDtype
  param : ∀ v, w.inputDtype = .i64 → fr.vals w.param = some v → HoldsInt v S.param
  locals : ∀ name v, name ≠ w.param → w.locals.lookup name = some .i64 → fr.vals name = some v →
    S.locals name = some .i64 ∧ ∃ x, ρ name = some x ∧ HoldsInt v x

/-- Python's value of a part is an integer that fits; a remainder is of a dividend that is not
negative by a positive divisor. -/
def PyFloats.PartInRange (py : PyFloats F) (fr : PyFrame F) (p : PyExpr F) : Prop :=
  (∃ n, py.eval fr p = .ok (.int n) ∧ Fits 64 n) ∧
    ∀ l r a b, p = .binOp l .mod r → py.eval fr l = .ok (.int a) → py.eval fr r = .ok (.int b) →
      0 ≤ a ∧ 0 < b

/-- The code computes Python's integer. -/
def ComputesInt (S : Sem F) (ρ : Env F) (w : Walker) (py : PyFloats F) (fr : PyFrame F)
    (p : PyExpr F) : Prop :=
  ∀ n, py.eval fr p = .ok (.int n) →
    ∃ ir b, w.expr p = .ok (ir, .i64) ∧ S.eval ρ ir .i64 = .ok (.i64 b) ∧ b.toInt = n

section Parity
variable {S : Sem F} {ρ : Env F} {w : Walker} {py : PyFloats F} {fr : PyFrame F} {e : PyExpr F}

theorem isIntTree_accepts : ∀ {e : PyExpr F}, isIntTree w e = true → ∃ ir, Accepts w e ir .i64
  | .name id, h => by
    have htag : w.tag? id = some .i64 := by simpa [isIntTree] using h
    by_cases hid : id = w.param
    · subst hid
      have hin : w.inputDtype = .i64 := by simpa [Walker.tag?] using htag
      exact ⟨.param, hin ▸ .param⟩
    · exact ⟨.localVar id, .localVar hid (by simpa [Walker.tag?, hid] using htag)⟩
  | .constant c, h => by
    cases c with
    | int n => exact ⟨_, .int n⟩
    | bool b | float x | str s | other cls => simp [isIntTree] at h
  | .unaryOp op operand, h => by
    simp only [isIntTree, Bool.and_eq_true] at h
    obtain ⟨irOp, hop⟩ := Option.isSome_iff_exists.mp h.1
    obtain ⟨ir, hacc⟩ := isIntTree_accepts h.2
    exact ⟨_, .unaryOp hop hacc⟩
  | .binOp left op right, h => by
    simp only [isIntTree, Bool.and_eq_true] at h
    obtain ⟨⟨hop, hl⟩, hr⟩ := h
    obtain ⟨l, hl⟩ := isIntTree_accepts hl
    obtain ⟨r, hr⟩ := isIntTree_accepts hr
    obtain ⟨irOp, hmap⟩ : ∃ irOp, binOpMap op = some irOp := by
      cases op <;> simp [isIntOp] at hop <;> exact ⟨_, rfl⟩
    exact ⟨_, .binOp hmap hl hr fun _ => rfl⟩

theorem Accepts.computesInt_iff {ir : Expr F} (h : Accepts w e ir .i64) :
    ComputesInt S ρ w py fr e ↔ ∀ n, py.eval fr e = .ok (.int n) →
      ∃ b, S.eval ρ ir .i64 = .ok (.i64 b) ∧ b.toInt = n := by
  constructor
  · intro hc n hn
    obtain ⟨ir', b, hir, hb, hbn⟩ := hc n hn
    rw [h.expr_eq] at hir
    cases hir
    exact ⟨b, hb, hbn⟩
  · intro hc n hn
    obtain ⟨b, hb, hbn⟩ := hc n hn
    exact ⟨ir, b, h.expr_eq, hb, hbn⟩

/-- One operator: on words that hold the operands it gives the word of Python's result, a
rounded quotient apart. -/
theorem evalBinOp_int_iff {op : PyBinOp} {irOp : BinOp} {a b n : ℤ} {x y : BitVec 64}
    (hop : isIntOp op = true) (hmap : binOpMap op = some irOp) (hx : x.toInt = a)
    (hy : y.toInt = b) (hmod : op = .mod → 0 ≤ a ∧ 0 < b) (hn : py.intOp irOp a b = .ok (.int n))
    (hfits : Fits 64 n) :
    (∃ z : BitVec 64, evalBinOp S.fl irOp (.i64 x) (.i64 y) .i64 = .ok (.i64 z) ∧ z.toInt = n) ↔
      (op = .floorDiv → EvenQuotient a b) := by
  have hw : 0 < 64 := by norm_num
  cases op <;> simp [isIntOp] at hop <;> cases hmap
  · -- `+`
    cases hn
    exact iff_of_true ⟨x + y, rfl, toInt_add_of_fits hw hx hy hfits⟩ (by simp)
  · -- `-`
    cases hn
    exact iff_of_true ⟨x - y, rfl, toInt_sub_of_fits hw hx hy hfits⟩ (by simp)
  · -- `*`
    cases hn
    exact iff_of_true ⟨x * y, rfl, toInt_mul_of_fits hw hx hy hfits⟩ (by simp)
  · -- `//`, which the code rounds towards zero
    simp only [PyFloats.intOp] at hn
    split at hn
    · cases hn
    rename_i hb
    cases hn
    have hy0 : y ≠ 0 := fun h => hb (by rw [← hy, h]; rfl)
    simp only [evalBinOp, Val.sdiv, sdivBits, hy0, if_false, forall_const]
    rw [← fdiv_eq_tdiv_iff hb]
    by_cases hovf : x = BitVec.intMin 64 ∧ y = BitVec.allOnes 64
    · -- the quotient `2 ^ 63` does not fit, whichever way it is rounded
      have hnot := not_fits_intMin_tdiv hw hovf.1 hovf.2
      rw [hx, hy] at hnot
      rw [if_pos hovf]
      refine iff_of_false ?_ fun heq => hnot (heq ▸ hfits)
      rintro ⟨z, hz, -⟩
      cases hz
    · rw [if_neg hovf]
      have hsdiv : (x.sdiv y).toInt = a.tdiv b := by
        rw [← hx, ← hy]
        apply BitVec.toInt_sdiv_of_ne_or_ne
        rcases not_and_or.mp hovf with h | h
        · exact .inl h
        · exact .inr (by simpa using h)
      constructor
      · rintro ⟨z, hz, hzn⟩
        cases hz
        rw [← hzn, hsdiv]
      · intro heq
        exact ⟨x.sdiv y, rfl, hsdiv.trans heq.symm⟩
  · -- `%`
    obtain ⟨ha, hb⟩ := hmod rfl
    simp only [PyFloats.intOp, hb.ne', if_false] at hn
    cases hn
    have hy0 : y ≠ 0 := fun h => hb.ne' (by rw [← hy, h]; rfl)
    refine iff_of_true ⟨x.srem y, ?_, ?_⟩ (by simp)
    · simp only [evalBinOp, Val.srem, sremBits, hy0, if_false]
      rfl
    · rw [toInt_srem_eq hx hy, Int.fmod_eq_tmod_of_nonneg ha hb.le]

/-- One node: if its operands are computed, it is unless it is a rounded quotient. -/
theorem computesInt_iff (hS : HoldsInts S ρ w fr) (htree : isIntTree w e = true)
    (hrange : ∀ p, py.Evaluates fr e p → py.PartInRange fr p)
    (hparts : ∀ c ∈ py.parts fr e, ComputesInt S ρ w py fr c) :
    ComputesInt S ρ w py fr e ↔ ∀ l r a b, e = .binOp l .floorDiv r →
      py.eval fr l = .ok (.int a) → py.eval fr r = .ok (.int b) → EvenQuotient a b := by
  obtain ⟨ir, hacc⟩ := isIntTree_accepts htree
  rw [hacc.computesInt_iff]
  obtain ⟨⟨n, hn, hfits⟩, hmod⟩ := hrange e (.self e)
  cases e with
  | name id =>
    refine iff_of_true (fun n' hn' => ?_) (by simp)
    have hval : fr.vals id = some (.int n') := by
      simp only [PyFloats.eval, PyFrame.read] at hn'
      cases hv : fr.vals id with
      | none =>
        rw [hv] at hn'
        cases hn'
      | some v =>
        rw [hv] at hn'
        cases hn'
        rfl
    generalize hd : Dtype.i64 = d at hacc
    cases hacc with
    | param =>
      obtain ⟨m, b, hm, hb, hbm⟩ := hS.param _ hd.symm hval
      cases hm
      refine ⟨b, ?_, hbm⟩
      simp only [Sem.eval, hS.lane, ← hd, hb]
      rfl
    | localVar hne hl =>
      subst hd
      obtain ⟨hloc, x, hρ, m, b, hm, rfl, hbm⟩ := hS.locals id _ hne hl hval
      cases hm
      refine ⟨b, ?_, hbm⟩
      simp only [Sem.eval, hloc, Sem.readLocal, hρ]
      rfl
  | constant c =>
    cases c with
    | int m =>
      cases hacc
      cases hn
      refine iff_of_true (fun n' hn' => ?_) (by simp)
      cases hn'
      exact ⟨_, rfl, toInt_ofInt_of_fits (by norm_num) hfits⟩
    | bool b | float x | str s | other cls => simp [isIntTree] at htree
  | unaryOp op operand =>
    refine iff_of_true (fun n' hn' => ?_) (by simp)
    cases hacc with
    | @unaryOp _ irOp _ inner _ hop hoperand =>
      obtain ⟨⟨m, hm, -⟩, -⟩ := hrange operand (.part List.mem_cons_self (.self operand))
      obtain ⟨b, hb, hbm⟩ := hoperand.computesInt_iff.mp (hparts operand List.mem_cons_self) m hm
      rw [hn] at hn'
      cases hn'
      simp only [PyFloats.eval, hop, hm, bind, Except.bind, PyFloats.unary, PyVal.num] at hn
      simp only [Sem.eval, hb, bind, Except.bind]
      cases irOp with
      | neg =>
        cases hn
        exact ⟨-b, rfl, toInt_neg_of_fits (by norm_num) hbm hfits⟩
      | plus =>
        cases hn
        exact ⟨b, rfl, hbm⟩
  | binOp left op right =>
    have hmemL : left ∈ py.parts fr (.binOp left op right) := List.mem_cons_self
    have hmemR : right ∈ py.parts fr (.binOp left op right) := by simp [PyFloats.parts]
    obtain ⟨⟨a, ha, -⟩, -⟩ := hrange left (.part hmemL (.self left))
    obtain ⟨⟨b, hb, -⟩, -⟩ := hrange right (.part hmemR (.self right))
    simp only [isIntTree, Bool.and_eq_true] at htree
    obtain ⟨⟨hop, hl⟩, hr⟩ := htree
    obtain ⟨l, haccL⟩ := isIntTree_accepts hl
    obtain ⟨r, haccR⟩ := isIntTree_accepts hr
    obtain ⟨x, hx, hxa⟩ := haccL.computesInt_iff.mp (hparts left hmemL) a ha
    obtain ⟨y, hy, hyb⟩ := haccR.computesInt_iff.mp (hparts right hmemR) b hb
    obtain ⟨irOp, l', lt, r', rt, hmap, hl', hr', hd, rfl, -⟩ := Walker.expr_binOp hacc.expr_eq
    rw [haccL.expr_eq] at hl'
    rw [haccR.expr_eq] at hr'
    cases hl'
    cases hr'
    have hn' : py.intOp irOp a b = .ok (.int n) := by
      rw [← py.binOp_ints (l := .int a) (r := .int b) rfl rfl]
      simpa only [PyFloats.eval, hmap, ha, hb, bind, Except.bind] using hn
    have hstep := evalBinOp_int_iff (S := S) hop hmap hxa hyb
      (fun hm => hmod left right a b (by rw [hm]) ha hb) hn' hfits
    have heval : S.eval ρ (.binOp irOp (liftTo l .i64 .i64) (liftTo r .i64 .i64)) .i64 =
        evalBinOp S.fl irOp (.i64 x) (.i64 y) .i64 := by
      simp only [liftTo_self, Sem.eval, hx, hy, bind, Except.bind]
    rw [heval]
    constructor
    · rintro hc l₀ r₀ a₀ b₀ heq ha₀ hb₀
      cases heq
      rw [ha] at ha₀
      rw [hb] at hb₀
      cases ha₀
      cases hb₀
      exact hstep.mp (hc n hn) rfl
    · intro hc n' hn''
      rw [hn] at hn''
      cases hn''
      exact hstep.mpr fun hfloor => hc left right a b (by rw [hfloor]) ha hb
  | compare | ifExp | call | «attribute» | other => simp [isIntTree] at htree

theorem isIntTree_evaluates {p : PyExpr F} (htree : isIntTree w e = true)
    (hp : py.Evaluates fr e p) : isIntTree w p = true := by
  induction hp with
  | self e => exact htree
  | @part e c p hc _ ih =>
    apply ih
    cases e with
    | unaryOp op operand =>
      obtain rfl := List.mem_singleton.mp hc
      simp only [isIntTree, Bool.and_eq_true] at htree
      exact htree.2
    | binOp left op right =>
      simp only [isIntTree, Bool.and_eq_true] at htree
      simp only [PyFloats.parts, List.mem_cons, List.not_mem_nil, or_false] at hc
      rcases hc with rfl | rfl
      · exact htree.1.2
      · exact htree.2
    | name | constant => cases hc
    | compare | ifExp | call | «attribute» | other => simp [isIntTree] at htree

theorem PyFloats.Evaluates.trans {c p : PyExpr F} (h : py.Evaluates fr e c)
    (h' : py.Evaluates fr c p) : py.Evaluates fr e p := by
  induction h with
  | self e => exact h'
  | part hc _ ih => exact .part hc (ih h')

/-- **Integer parity.** Where all parts of an integer expression are in range, the `i64` lane
computes Python's integer for every part exactly when no `//` in it rounds: the divisor
divides, or both operands have the same sign. -/
theorem int_parity_iff (hS : HoldsInts S ρ w fr) (htree : isIntTree w e = true)
    (hrange : ∀ p, py.Evaluates fr e p → py.PartInRange fr p) :
    (∀ p, py.Evaluates fr e p → ComputesInt S ρ w py fr p) ↔
      ∀ l r a b, py.Evaluates fr e (.binOp l .floorDiv r) → py.eval fr l = .ok (.int a) →
        py.eval fr r = .ok (.int b) → EvenQuotient a b := by
  have hnode : ∀ p, py.Evaluates fr e p → (∀ c ∈ py.parts fr p, ComputesInt S ρ w py fr c) →
      (ComputesInt S ρ w py fr p ↔ ∀ l r a b, p = .binOp l .floorDiv r →
        py.eval fr l = .ok (.int a) → py.eval fr r = .ok (.int b) → EvenQuotient a b) :=
    fun p hp => computesInt_iff hS (isIntTree_evaluates htree hp)
      fun q hq => hrange q (hp.trans hq)
  constructor
  · intro hall l r a b hp ha hb
    exact (hnode _ hp fun c hc => hall c (hp.snoc hc)).mp (hall _ hp) l r a b rfl ha hb
  · intro heven p hp
    induction hn : sizeOf p using Nat.strong_induction_on generalizing p with
    | _ n ih =>
      refine (hnode p hp fun c hc => ?_).mpr fun l r a b heq ha hb => heven l r a b (heq ▸ hp) ha hb
      exact ih _ (hn ▸ py.sizeOf_part hc) c (hp.snoc hc) rfl

/-- When a function is called the parameter holds the argument. -/
theorem holdsInts_call {fl : FloatOps F} {k : Kernel F} {n : ℤ} (node : FnNode F) (param : String)
    (strict : Bool) (hk : k.inputDtype = .i64) (hn : Fits 64 n) :
    HoldsInts (k.sem fl strict (.i64 (BitVec.ofInt 64 n))) ρ (.init param .i64)
      (node.frame param (.int n)) where
  lane := hk
  param v _ hv := by
    simp only [Walker.init, FnNode.frame, if_true, Option.some.injEq] at hv
    exact ⟨n, _, hv.symm, rfl, toInt_ofInt_of_fits (by norm_num) hn⟩
  locals name v hne hl _ := by cases hl

end Parity

/-! ## Halves, rounded down and towards zero -/

def halfBody : PyExpr (BitVec 64) := .binOp (.name "x") .floorDiv (.constant (.int 2))

def halfSource : FnNode (BitVec 64) := .lambda ["x"] halfBody

def halfKernel : Kernel (BitVec 64) := ⟨.i64, .i64, [.ret (.binOp .floorDiv .param (.constI64 2))]⟩

theorem halfBody_inRange {n : ℤ} (hn : Fits 64 n) (hq : Fits 64 (n.fdiv 2)) :
    ∀ p, hostPython.Evaluates (halfSource.frame "x" (.int n)) halfBody p →
      hostPython.PartInRange (halfSource.frame "x" (.int n)) p := by
  intro p hp
  rcases PyFloats.evaluates_binOp_atoms hp with rfl | rfl | rfl
  · refine ⟨⟨n.fdiv 2, rfl, hq⟩, ?_⟩
    simp
  · exact ⟨⟨n, rfl, hn⟩, by simp⟩
  · exact ⟨⟨2, rfl, by decide⟩, by simp⟩

theorem int_parity_half : hostPython.call 0 halfSource (.int 7) = some (.ok (some (.int 3))) ∧
    ∀ p, hostPython.Evaluates (halfSource.frame "x" (.int 7)) halfBody p →
      ComputesInt (halfKernel.sem hostFloatBits false (.i64 7)) Env.empty (.init "x" .i64)
        hostPython (halfSource.frame "x" (.int 7)) p := by
  refine ⟨rfl, (int_parity_iff (holdsInts_call halfSource "x" false rfl (by decide)) rfl
    (halfBody_inRange (by decide) (by decide))).mpr ?_⟩
  intro l r a b hp ha hb
  rcases PyFloats.evaluates_binOp_atoms hp with heq | heq | heq
  · cases heq
    cases ha
    cases hb
    exact .inr (by norm_num)
  · cases heq
  · cases heq

/-- `lambda x: x // 2` at -7: Python's value is -4, the code's is -3. -/
theorem half_rounds : walkFunction .i64 halfSource = some halfKernel ∧
    (tryCompile hostFloatBits (some halfSource) .i64).accepted = true ∧
    isIntTree (.init "x" .i64) halfBody = true ∧
    (∀ p, hostPython.Evaluates (halfSource.frame "x" (.int (-7))) halfBody p →
      hostPython.PartInRange (halfSource.frame "x" (.int (-7))) p) ∧
    hostPython.eval (halfSource.frame "x" (.int (-7))) halfBody = .ok (.int (-4)) ∧
    (halfKernel.sem hostFloatBits false (.i64 (-7))).eval Env.empty
      (.binOp .floorDiv .param (.constI64 2)) .i64 = .ok (.i64 (-3)) ∧
    ¬ ComputesInt (halfKernel.sem hostFloatBits false (.i64 (-7))) Env.empty (.init "x" .i64)
      hostPython (halfSource.frame "x" (.int (-7))) halfBody := by
  refine ⟨rfl, by decide +kernel, rfl, halfBody_inRange (by decide) (by decide), rfl, rfl, ?_⟩
  intro h
  obtain ⟨ir, b, hir, hb, hbn⟩ := h (-4) rfl
  cases hir
  cases hb
  revert hbn
  decide

end Gilmap
