import Gilmap.Jit.IntParity
import Gilmap.Python.HostFloats
import Gilmap.Python.SafeRuns

/-! # Rules for safe expressions

When the instruction of a node follows Python: integers that stay in the word and whose
quotients are not rounded, floats whose operands are lifted to Python's own, and the
conversions between the two.
-/
namespace Gilmap
open Library
variable {F : Type}

namespace PyFloats

/-- The expression is safe, and an integer in a word. -/
structure SafeWord (py : PyFloats F) (w : Walker) (fr : PyFrame F) (e : PyExpr F) (n : ℤ) : Prop where
  safe : py.Safe w fr e
  ty : w.slotTy e = .i64
  eval : py.eval fr e = .ok (.int n)

/-- The expression is safe, and a float. -/
structure SafeFloat (py : PyFloats F) (w : Walker) (fr : PyFrame F) (e : PyExpr F) (x : F) : Prop where
  safe : py.Safe w fr e
  dtype : w.ownDtype e = .f64
  eval : py.eval fr e = .ok (.float x)

/-- The expression is safe, and Python's number for it is converted to the float. -/
inductive SafeLifted (py : PyFloats F) (w : Walker) (fr : PyFrame F) : PyExpr F → F → Prop
  | word {e : PyExpr F} {n : ℤ} {x : F} : py.SafeWord w fr e n → py.ofInt n = .ok x →
      SafeLifted py w fr e x
  | float {e : PyExpr F} {x : F} : py.SafeFloat w fr e x → SafeLifted py w fr e x

end PyFloats

section Values
variable {py : PyFloats F} {w : Walker} {fr : PyFrame F} {e : PyExpr F} {m n : ℤ} {x y : F} {v : Val F}

theorem Walker.slotTy_eq_i64 (h : w.slotTy e = .i64) : w.ownDtype e = .i64 ∧ e.isFlag = false := by
  rw [slotTy] at h
  cases hflag : e.isFlag with
  | true =>
    rw [hflag] at h
    cases h
  | false =>
    rw [hflag] at h
    cases hd : w.ownDtype e with
    | i64 => exact ⟨rfl, rfl⟩
    | f64 =>
      rw [hd] at h
      cases h

theorem PyFloats.SafeWord.holds (h : py.SafeWord w fr e n) (hv : py.Holds w fr e v) :
    ∃ b : BitVec 64, v = .i64 b ∧ b.toInt = n := by
  obtain ⟨u, hu, hstands⟩ := hv.stands
  rw [h.eval] at hu
  cases hu
  have hty := hv.ty.trans h.ty
  rw [(Walker.slotTy_eq_i64 h.ty).1] at hstands
  cases hstands with
  | @word _ _ b hn hb => exact ⟨b, rfl, hb.trans (hn.eq_of_num rfl)⟩
  | flag => cases hty

theorem PyFloats.SafeFloat.holds (h : py.SafeFloat w fr e x) (hv : py.Holds w fr e v) : v = .f64 x := by
  obtain ⟨u, hu, hstands⟩ := hv.stands
  rw [h.eval] at hu
  cases hu
  rw [h.dtype] at hstands
  cases hstands with
  | float => rfl
  | integer hn => cases hn

theorem PyFloats.SafeLifted.safe (h : py.SafeLifted w fr e x) : py.Safe w fr e := by
  cases h with
  | word h | float h => exact h.safe

/-- The code lifts the operand to Python's float. -/
theorem PyFloats.SafeLifted.lift (hpy : py.Lawful) (h : py.SafeLifted w fr e x) (hv : py.Holds w fr e v) :
    coerceVal py.fl v (w.ownDtype e) .f64 = .ok (.f64 x) := by
  cases h with
  | float h =>
    rw [h.holds hv, h.dtype]
    rfl
  | word h hx =>
    obtain ⟨b, rfl, rfl⟩ := h.holds hv
    rw [(Walker.slotTy_eq_i64 h.ty).1, ← hpy.ofInt hx (fits_toInt b), BitVec.ofInt_toInt]
    rfl

end Values

/-! ## Nodes -/

section Nodes
variable {py : PyFloats F} {w : Walker} {fr : PyFrame F} {e left right arg : PyExpr F} {m n k : ℤ}
  {x y z : F} {v : PyVal F} {id : String}

/-- The operand of a node with one operand. -/
theorem PyFloats.Safe.node₁ (hnode : e.isNode = true) (hops : e.operands = [arg])
    (hsafe : py.Safe w fr arg) (hv : py.eval fr e = .ok v)
    (hinstr : ∀ u, py.Holds w fr arg u →
      ∃ z, w.instr py.fl e [u] = .ok z ∧ py.Stands (w.ownDtype e) v z) : py.Safe w fr e := by
  refine .node hnode (fun c hc => ?_) hv fun xs hxs => ?_
  · rw [hops] at hc
    obtain rfl := List.mem_singleton.mp hc
    exact hsafe
  · rw [hops] at hxs
    cases hxs with
    | cons hu hxs =>
      cases hxs
      exact hinstr _ hu

theorem PyFloats.Safe.node₂ (hnode : e.isNode = true) (hops : e.operands = [left, right])
    (hl : py.Safe w fr left) (hr : py.Safe w fr right) (hv : py.eval fr e = .ok v)
    (hinstr : ∀ a b, py.Holds w fr left a → py.Holds w fr right b →
      ∃ z, w.instr py.fl e [a, b] = .ok z ∧ py.Stands (w.ownDtype e) v z) : py.Safe w fr e := by
  refine .node hnode (fun c hc => ?_) hv fun xs hxs => ?_
  · rw [hops] at hc
    rcases List.mem_pair.mp hc with rfl | rfl
    · exact hl
    · exact hr
  · rw [hops] at hxs
    cases hxs with
    | cons ha hxs =>
      cases hxs with
      | cons hb hxs =>
        cases hxs
        exact hinstr _ _ ha hb

/-! ### Integers -/

theorem PyFloats.SafeWord.name (hn : fr.vals id = some (.int n)) (hty : w.slotTy (F := F) (.name id) = .i64) :
    py.SafeWord w fr (.name id) n where
  safe := .name hn
  ty := hty
  eval := eval_name hn

theorem PyFloats.SafeWord.int (hn : Fits 64 n) : py.SafeWord w fr (.constant (.int n)) n where
  safe := .node rfl (fun _ hc => by cases hc) rfl fun xs hxs => by
    cases hxs
    exact ⟨_, rfl, .word (.inl rfl) (toInt_ofInt_of_fits (by norm_num) hn)⟩
  ty := rfl
  eval := rfl

/-- The value of an operation on two integers. -/
theorem PyFloats.eval_binOp_int {op : PyBinOp} {irOp : BinOp} (hop : binOpMap op = some irOp)
    (hm : py.eval fr left = .ok (.int m)) (hn : py.eval fr right = .ok (.int n)) :
    py.eval fr (.binOp left op right) = py.intOp irOp m n := by
  simp only [PyFloats.eval, hop, hm, hn]
  rfl

/-- The instruction of an operation on two words. -/
theorem PyFloats.SafeWord.instr_binOp {op : PyBinOp} {irOp : BinOp} (hop : binOpMap op = some irOp)
    (hl : py.SafeWord w fr left m) (hr : py.SafeWord w fr right n) {a b : Val F}
    (ha : py.Holds w fr left a) (hb : py.Holds w fr right b) :
    ∃ c d : BitVec 64, c.toInt = m ∧ d.toInt = n ∧
      w.instr py.fl (.binOp left op right) [a, b] = evalBinOp py.fl irOp (.i64 c) (.i64 d) .i64 := by
  obtain ⟨c, rfl, hc⟩ := hl.holds ha
  obtain ⟨d, rfl, hd⟩ := hr.holds hb
  refine ⟨c, d, hc, hd, ?_⟩
  simp only [Walker.instr, hop, (Walker.slotTy_eq_i64 hl.ty).1, (Walker.slotTy_eq_i64 hr.ty).1]
  rfl

/-- Integers whose result fits the word. -/
theorem PyFloats.SafeWord.binOp {op : PyBinOp} {irOp : BinOp} (hop : binOpMap op = some irOp)
    (hint : isIntOp op = true) (hl : py.SafeWord w fr left m) (hr : py.SafeWord w fr right n)
    (hty : w.slotTy (.binOp left op right) = .i64) (hk : py.intOp irOp m n = .ok (.int k))
    (hfits : Fits 64 k) (hquot : op = .floorDiv → EvenQuotient m n)
    (hmod : op = .mod → 0 ≤ m ∧ 0 < n) : py.SafeWord w fr (.binOp left op right) k := by
  have heval := (eval_binOp_int hop hl.eval hr.eval).trans hk
  refine ⟨.node₂ rfl rfl hl.safe hr.safe heval fun a b ha hb => ?_, hty, heval⟩
  obtain ⟨c, d, hc, hd, heq⟩ := hl.instr_binOp hop hr ha hb
  let S : Sem F := ⟨py.fl, .i64, .i64, fun _ => none, .i64 0, false⟩
  obtain ⟨z, hz, hzk⟩ := (evalBinOp_int_iff (S := S) hint hop hc hd hmod hk hfits).mpr hquot
  rw [heq, (Walker.slotTy_eq_i64 hty).1]
  exact ⟨.i64 z, hz, .word (.inl rfl) hzk⟩

/-- A quotient that may be rounded the other way. -/
theorem PyFloats.Calm.quotient_word (hl : py.SafeWord w fr left m) (hr : py.SafeWord w fr right n)
    (hn : n ≠ 0) (hovf : ¬ (m = -2 ^ 63 ∧ n = -1)) : py.Calm w fr (.binOp left .floorDiv right) := by
  refine .runs rfl (fun c hc => ?_) fun xs hxs => ?_
  · rcases List.mem_pair.mp hc with rfl | rfl
    · exact hl.safe
    · exact hr.safe
  · cases hxs with
    | cons ha hxs =>
      cases hxs with
      | cons hb hxs =>
        cases hxs
        obtain ⟨c, d, rfl, rfl, heq⟩ := hl.instr_binOp (show binOpMap .floorDiv = _ from rfl) hr ha hb
        have hd : d ≠ 0 := fun h => hn (by rw [h]; rfl)
        have hmin : ¬ (c = BitVec.intMin 64 ∧ d = BitVec.allOnes 64) := by
          rintro ⟨rfl, rfl⟩
          exact hovf ⟨by decide, by decide⟩
        rw [heq]
        refine ⟨.i64 (c.sdiv d), ?_⟩
        simp only [evalBinOp, Val.sdiv, sdivBits, hd, hmin, if_false]
        rfl

/-! ### Floats -/

theorem PyFloats.SafeFloat.name (hx : fr.vals id = some (.float x))
    (hd : w.ownDtype (F := F) (.name id) = .f64) : py.SafeFloat w fr (.name id) x where
  safe := .name hx
  dtype := hd
  eval := eval_name hx

theorem PyFloats.SafeFloat.const : py.SafeFloat w fr (.constant (.float x)) x where
  safe := .node rfl (fun _ hc => by cases hc) rfl fun xs hxs => by
    cases hxs
    exact ⟨_, rfl, .float x⟩
  dtype := rfl
  eval := rfl

/-- An operation on floats, to which the operands are lifted. -/
theorem PyFloats.SafeFloat.binOp {op : PyBinOp} {irOp : BinOp} (hpy : py.Lawful)
    (hop : binOpMap op = some irOp) (hl : py.SafeLifted w fr left x) (hr : py.SafeLifted w fr right y)
    (hjoin : (w.ownDtype left).join (w.ownDtype right) = .f64)
    (hd : w.ownDtype (.binOp left op right) = .f64) (hz : py.floatOp irOp x y = .ok (.float z))
    (hinstr : evalBinOp py.fl irOp (.f64 x) (.f64 y) .f64 = .ok (.f64 z)) :
    py.SafeFloat w fr (.binOp left op right) z := by
  have heval : py.eval fr (.binOp left op right) = .ok (.float z) := by
    cases hl with
    | word hl hx =>
      cases hr with
      | word hr _ =>
        rw [(Walker.slotTy_eq_i64 hl.ty).1, (Walker.slotTy_eq_i64 hr.ty).1] at hjoin
        cases hjoin
      | float hr =>
        simp only [PyFloats.eval, hop, hl.eval, hr.eval, ← hz]
        show (py.ofInt _ >>= fun a => py.floatOp irOp a y) = _
        rw [hx]
        rfl
    | float hl =>
      cases hr with
      | word hr hy =>
        simp only [PyFloats.eval, hop, hl.eval, hr.eval, ← hz]
        show (py.ofInt _ >>= fun b => py.floatOp irOp x b) = _
        rw [hy]
        rfl
      | float hr =>
        simp only [PyFloats.eval, hop, hl.eval, hr.eval, ← hz]
        rfl
  refine ⟨.node₂ rfl rfl hl.safe hr.safe heval fun a b ha hb => ?_, hd, heval⟩
  refine ⟨.f64 z, ?_, hd ▸ .float z⟩
  simp only [Walker.instr, hop, hjoin, hl.lift hpy ha, hr.lift hpy hb]
  exact hinstr

/-! ### Conversions -/

theorem PyFloats.SafeFloat.toFloat (hscope : fr.scope = []) (h : py.SafeFloat w fr arg x)
    (hd : w.ownDtype (.call (.name "float") [arg] []) = .f64) :
    py.SafeFloat w fr (.call (.name "float") [arg] []) x := by
  have heval : py.eval fr (.call (.name "float") [arg] []) = .ok (.float x) := by
    simp only [PyFloats.eval, PyFrame.useGlobal, hscope, h.eval]
    rfl
  refine ⟨.node₁ rfl rfl h.safe heval fun u hu => ?_, hd, heval⟩
  refine ⟨.f64 x, ?_, hd ▸ .float x⟩
  rw [h.holds hu]
  simp only [Walker.instr, callInstr, h.dtype]
  rfl

/-- `int()` of a float, or of a number that is an integer to Python and a float to the code. -/
theorem PyFloats.SafeWord.toInt (hpy : py.Lawful) (hscope : fr.scope = []) (hsafe : py.Safe w fr arg)
    (hd : w.ownDtype arg = .f64) (hv : py.eval fr arg = .ok v) (hn : py.toPyInt v = .ok (.int n))
    (hfits : Fits 64 n) (hty : w.slotTy (.call (.name "int") [arg] []) = .i64) :
    py.SafeWord w fr (.call (.name "int") [arg] []) n := by
  have heval : py.eval fr (.call (.name "int") [arg] []) = .ok (.int n) := by
    simp only [PyFloats.eval, PyFrame.useGlobal, hscope, hv, ← hn]
    rfl
  refine ⟨.node₁ rfl rfl hsafe heval fun u hu => ?_, hty, heval⟩
  -- the float of the code is truncated to Python's integer
  obtain ⟨x, rfl, hx⟩ : ∃ x, u = .f64 x ∧ py.toInt x = .ok n := by
    obtain ⟨v', hv', hstands⟩ := hu.stands
    rw [hv] at hv'
    cases hv'
    rw [hd] at hstands
    cases hstands with
    | float x =>
      refine ⟨x, rfl, ?_⟩
      cases hx : py.toInt x with
      | ok m =>
        simp only [PyFloats.toPyInt, hx] at hn
        cases hn
        rfl
      | error e =>
        simp only [PyFloats.toPyInt, hx] at hn
        cases hn
    | @integer _ m x hm hx =>
      refine ⟨x, rfl, ?_⟩
      have hmn : m = n := by
        cases v with
        | int | bool =>
          cases hm
          cases hn
          rfl
        | float | complex => cases hm
      rw [hpy.trunc hx, hmn]
  refine ⟨.i64 (BitVec.ofInt 64 n), ?_, ?_⟩
  · simp only [Walker.instr, callInstr, hd, coerceVal, Val.fcvtToSint, hpy.toInt hx hfits]
    rfl
  · rw [(Walker.slotTy_eq_i64 hty).1]
    exact .word (.inl rfl) (toInt_ofInt_of_fits (by norm_num) hfits)

/-- `math.floor`, which is an integer to Python and a float to the code. -/
theorem PyFloats.SafeFloat.floor (hscope : fr.scope = []) (h : py.SafeFloat w fr arg x)
    (hd : w.ownDtype (.call (.attribute (.name "math") "floor") [arg] []) = .f64)
    (hn : py.floor x = .ok n) (heq : py.cmpInt .eq n (py.fl.libm .floor x) = true) :
    py.Safe w fr (.call (.attribute (.name "math") "floor") [arg] []) ∧
      py.eval fr (.call (.attribute (.name "math") "floor") [arg] []) = .ok (.int n) := by
  have heval : py.eval fr (.call (.attribute (.name "math") "floor") [arg] []) = .ok (.int n) := by
    simp only [PyFloats.eval, show mathMap.lookup "floor" = some .floor from rfl, PyFrame.useGlobal,
      hscope, h.eval]
    show py.mathCall .floor (.float x) = _
    show (py.floor x).map PyVal.int = _
    rw [hn]
    rfl
  refine ⟨.node₁ rfl rfl h.safe heval fun u hu => ?_, heval⟩
  rw [h.holds hu, hd]
  refine ⟨.f64 (py.fl.libm .floor x), ?_, .integer rfl heq⟩
  simp only [Walker.instr, callInstr, h.dtype]
  rfl

end Nodes

end Gilmap
