import Gilmap.Router.HostArrow
import Gilmap.Router.LaneRouting

/-! # The Arrow backend on integers

The closure of a body of integer operations against Python's evaluation of the body on the
elements. Divisions are those of integers, and those of a skipped arm run as well.
-/
namespace Gilmap
open Library
variable {F : Type}

section Parts
variable {pc : PaCompute F} {param : String} {arr : List ℤ} {e p : PyExpr F} {d : Datum F} {t : PaTy}
  {x o : ℤ}

theorem sub_of_mem_partsAt {c : PyExpr F} (h : e.isIntBody param = true) (hc : c ∈ e.partsAt param x) :
    c.isIntBody param = true ∧ (e.paTy.isSome = true → c.paTy.isSome = true) ∧
      (∀ n ∈ c.intConstants, n ∈ e.intConstants) ∧ ∀ q ∈ c.quotients, q ∈ e.quotients := by
  fun_cases PyExpr.isIntBody param e with
  | case1 | case2 | case3 => cases hc
  | case4 op operand =>
    simp only [PyExpr.isIntBody, Bool.and_eq_true] at h
    obtain rfl : c = operand := by simpa [PyExpr.partsAt] using hc
    exact ⟨h.2, paTy_operand, fun _ h => h, fun _ h => h⟩
  | case5 left op right =>
    simp only [PyExpr.isIntBody, Bool.and_eq_true] at h
    have hc : c = left ∨ c = right := by simpa [PyExpr.partsAt] using hc
    rcases hc with rfl | rfl
    · exact ⟨h.1.2, fun h => (paTy_binOp h).1, fun n hn => by simp [PyExpr.intConstants, hn],
        fun q hq => by simp [PyExpr.quotients, hq]⟩
    · exact ⟨h.2, fun h => (paTy_binOp h).2, fun n hn => by simp [PyExpr.intConstants, hn],
        fun q hq => by simp [PyExpr.quotients, hq]⟩
  | case6 left op right =>
    simp only [PyExpr.isIntBody, Bool.and_eq_true] at h
    have hc : c = left ∨ c = right := by simpa [PyExpr.partsAt] using hc
    rcases hc with rfl | rfl
    · exact ⟨h.1.2, fun h => (paTy_compare h).1, fun n hn => by simp [PyExpr.intConstants, hn],
        fun q hq => by simp [PyExpr.quotients, hq]⟩
    · exact ⟨h.2, fun h => (paTy_compare h).2, fun n hn => by simp [PyExpr.intConstants, hn],
        fun q hq => by simp [PyExpr.quotients, hq]⟩
  | case7 test body orelse =>
    simp only [PyExpr.isIntBody, Bool.and_eq_true] at h
    have hc : c = test ∨ c = body ∨ c = orelse := by
      simp only [PyExpr.partsAt, List.mem_cons] at hc
      rcases hc with rfl | hc
      · exact .inl rfl
      · split at hc
        · split at hc <;> simp_all
        · cases hc
    rcases hc with rfl | rfl | rfl
    · exact ⟨h.1.1, fun h => (paTy_ifExp h).1, fun n hn => by simp [PyExpr.intConstants, hn],
        fun q hq => by simp [PyExpr.quotients, hq]⟩
    · exact ⟨h.1.2, fun h => (paTy_ifExp h).2.1, fun n hn => by simp [PyExpr.intConstants, hn],
        fun q hq => by simp [PyExpr.quotients, hq]⟩
    · exact ⟨h.2, fun h => (paTy_ifExp h).2.2, fun n hn => by simp [PyExpr.intConstants, hn],
        fun q hq => by simp [PyExpr.quotients, hq]⟩
  | case8 hname hbool hint hunary hbin hcmp hif =>
    unfold PyExpr.isIntBody at h
    split at h
    all_goals simp_all

/-- What holds for the parts of a body. -/
theorem EvaluatesAt.sub (hp : EvaluatesAt param x e p) (h : e.isIntBody param = true) :
    p.isIntBody param = true ∧ (e.paTy.isSome = true → p.paTy.isSome = true) ∧
      (∀ n ∈ p.intConstants, n ∈ e.intConstants) ∧ ∀ q ∈ p.quotients, q ∈ e.quotients := by
  induction hp with
  | self e => exact ⟨h, id, fun _ h => h, fun _ h => h⟩
  | @part e c p hc _ ih =>
    suffices hsub : c.isIntBody param = true ∧ (e.paTy.isSome = true → c.paTy.isSome = true) ∧
        (∀ n ∈ c.intConstants, n ∈ e.intConstants) ∧ ∀ q ∈ c.quotients, q ∈ e.quotients by
      obtain ⟨hbody, hty, hconst, hquot⟩ := hsub
      obtain ⟨ihbody, ihty, ihconst, ihquot⟩ := ih hbody
      exact ⟨ihbody, fun h => ihty (hty h), fun n hn => hconst n (ihconst n hn),
        fun q hq => hquot q (ihquot q hq)⟩
    exact sub_of_mem_partsAt h hc

theorem fits_of_bare {n : ℤ} (h : e.bare = some n) (hlane : InLaneAt param x e) : Fits 64 n := by
  obtain ⟨⟨v, hv, hin⟩, -⟩ := hlane e (.self e)
  rw [valueAt_bare h] at hv
  cases hv
  exact hin

theorem intConstants_bare {e : PyExpr F} {n : ℤ} (h : e.bare = some n) : e.intConstants = [n] := by
  fun_induction PyExpr.bare e with
  | case1 m =>
    cases h
    rfl
  | case2 operand ih => exact ih h
  | case3 => cases h

theorem run_eq : pc.run param e arr = (do
    match ← pc.datum param arr e with
    | .array type vals => .ok (.array type vals)
    | .scalar result => pc.array (List.replicate arr.length result)) := by
  unfold PaCompute.run PaCompute.datum
  cases pc.lower param e <;> rfl

theorem run_of_array {vals : List (PyConst F)} (hd : pc.datum param arr e = .ok (.array t vals)) :
    pc.run param e arr = .ok (.array t vals) := by
  rw [run_eq, hd]
  rfl

theorem run_of_scalar {v : PyConst F} (hd : pc.datum param arr e = .ok (.scalar v))
    (harray : pc.array (List.replicate arr.length v) = .ok d) : pc.run param e arr = .ok d := by
  rw [run_eq, hd]
  exact harray

theorem exists_datum_of_run (h : pc.run param e arr = .ok d) : ∃ d', pc.datum param arr e = .ok d' := by
  rw [run_eq] at h
  cases hd : pc.datum param arr e with
  | error err =>
    rw [hd] at h
    cases h
  | ok d' => exact ⟨d', rfl⟩

theorem Computes.length {t' : PaTy} {vals : List (PyConst F)} (h : Computes o param arr e (.array t' vals) t) :
    vals.length = arr.length := by
  have hlen : bodyLen param arr e = some vals.length := by
    have hshape := h.shape
    generalize bodyLen param arr e = len at hshape
    cases hshape
    rfl
  rcases isLen_bodyLen (e := e) with hnone | hsome
  · rw [hnone] at hlen
    cases hlen
  · simpa [hsome] using hlen.symm

/-- The array returned for a body that computes: its elements are the words. -/
theorem Computes.run (hpc : pc.Documented o) (hd : pc.datum param arr e = .ok d)
    (h : Computes o param arr e d t) :
    ∃ t' vals, pc.run param e arr = .ok (.array t' vals) ∧ vals.length = arr.length ∧
      ∀ (i : ℕ) (x : ℤ), arr[i]? = some x →
        ∃ c : PyConst F, vals[i]? = some c ∧ c.OfTy t ∧ c.number = some (e.wordAt o x) := by
  cases d with
  | array t' vals =>
    refine ⟨t', vals, run_of_array hd, h.length, fun i x hx => ?_⟩
    obtain ⟨c, hc⟩ := RowAt.exists_row (.inl hx) h.shape
    exact ⟨c, hc, h.shape.ofTy hc, h.words (.inl hx) hc⟩
  | scalar v =>
    obtain ⟨t', harray⟩ := hpc.array (v := v) arr.length (.inr ⟨t, h.shape.ofTy (i := 0) rfl⟩)
    refine ⟨t', List.replicate arr.length v, run_of_scalar hd harray, List.length_replicate, fun i x hx => ?_⟩
    have hlt := (List.getElem?_eq_some_iff.mp hx).1
    exact ⟨v, by simp [hlt], h.shape.ofTy (i := i) rfl, h.words (.inl hx) rfl⟩

end Parts

/-! ## Some bodies -/

section Inputs
variable {param : String} {x : ℤ} {e : PyExpr F}

theorem InLaneAt.of_parts {v : PyVal ℚ} (hv : e.valueAt param x = .ok v) (hin : v.InLane)
    (hconv : ∀ n ∈ e.convertedAt param x, Representable n)
    (hparts : ∀ c ∈ e.partsAt param x, InLaneAt param x c) : InLaneAt param x e := by
  intro p hp
  cases hp with
  | self => exact ⟨⟨v, hv, hin⟩, hconv⟩
  | part hc hp => exact hparts _ hc p hp

theorem Plain.of_parts {n : ℤ} (hv : e.valueAt param x = .ok (.int n)) (hn : Fits 64 n)
    (hparts : ∀ c ∈ e.partsAt param x, Plain param x c) : Plain param x e := by
  intro p hp
  cases hp with
  | self => exact ⟨.int n, hv, n, hn, rfl⟩
  | part hc hp => exact hparts _ hc p hp

theorem lane_name (hx : Fits 64 x) :
    InLaneAt (F := F) param x (.name param) ∧ Plain (F := F) param x (.name param) := by
  have hv : (PyExpr.name param : PyExpr F).valueAt param x = .ok (.int x) := by simp [PyExpr.valueAt]
  exact ⟨.of_parts hv hx (by simp [PyExpr.convertedAt]) (by simp [PyExpr.partsAt]),
    .of_parts hv hx (by simp [PyExpr.partsAt])⟩

theorem lane_int {n : ℤ} (hn : Fits 64 n) :
    InLaneAt (F := F) param x (.constant (.int n)) ∧ Plain (F := F) param x (.constant (.int n)) :=
  ⟨.of_parts rfl hn (by simp [PyExpr.convertedAt]) (by simp [PyExpr.partsAt]),
    .of_parts rfl hn (by simp [PyExpr.partsAt])⟩

end Inputs

/-- `lambda x: x * 2 + 1` -/
def doublePlusOne : PyExpr (BitVec 64) :=
  .binOp (.binOp (.name "x") .mult (.constant (.int 2))) .add (.constant (.int 1))

/-- `lambda x: 10 / x if x != 0 else 0` -/
def guardedQuotient : PyExpr (BitVec 64) :=
  .ifExp (.compare (.name "x") [.notEq] [.constant (.int 0)])
    (.binOp (.constant (.int 10)) .div (.name "x")) (.constant (.int 0))

/-- `lambda x: x / 2` -/
def half : PyExpr (BitVec 64) := .binOp (.name "x") .div (.constant (.int 2))

theorem lane_doublePlusOne {x : ℤ} (hx : Fits 8 x) :
    InLaneAt "x" x doublePlusOne ∧ Plain "x" x doublePlusOne := by
  have hx64 : Fits 64 x := hx.mono (by decide) (by decide)
  have hproduct : (PyExpr.binOp (.name "x") .mult (.constant (.int 2)) : PyExpr (BitVec 64)).valueAt "x" x =
      .ok (.int (x * 2)) := by
    simp [PyExpr.valueAt, bodyBinOp, arithOp, PyVal.asInt, bind, Except.bind]
  have hsum : doublePlusOne.valueAt "x" x = .ok (.int (x * 2 + 1)) := by
    simp [doublePlusOne, PyExpr.valueAt, bodyBinOp, arithOp, PyVal.asInt, bind, Except.bind]
  have hfits : Fits 64 (x * 2) ∧ Fits 64 (x * 2 + 1) := by
    unfold Fits at *
    omega
  have hname : InLaneAt "x" x (.name "x" : PyExpr (BitVec 64)) ∧ Plain "x" x _ := lane_name hx64
  have hint : ∀ n, Fits 64 n → InLaneAt "x" x (.constant (.int n) : PyExpr (BitVec 64)) ∧ Plain "x" x _ :=
    fun n => lane_int
  obtain ⟨h2, h1⟩ := And.intro (hint 2 (by decide)) (hint 1 (by decide))
  constructor
  · refine .of_parts hsum hfits.2 ?_ ?_
    · rw [doublePlusOne, PyExpr.convertedAt, hproduct]
      simp [PyExpr.valueAt]
    · have hleft := InLaneAt.of_parts hproduct hfits.1 (by simp [PyExpr.convertedAt, PyExpr.valueAt])
        (by simpa [PyExpr.partsAt] using ⟨hname.1, h2.1⟩)
      simpa [doublePlusOne, PyExpr.partsAt] using ⟨hleft, h1.1⟩
  · have hleft := Plain.of_parts hproduct hfits.1 (by simpa [PyExpr.partsAt] using ⟨hname.2, h2.2⟩)
    exact .of_parts hsum hfits.2 (by simpa [doublePlusOne, PyExpr.partsAt] using ⟨hleft, h1.2⟩)

theorem guardedQuotient_inLane : InLaneAt "x" 0 guardedQuotient := by
  have htest : InLaneAt "x" 0 (.compare (.name "x") [.notEq] [.constant (.int 0)] : PyExpr (BitVec 64)) :=
    .of_parts (v := .bool false) (by simp [PyExpr.valueAt, PyCmpOp.onRats, PyVal.rat, bind, Except.bind])
      trivial (by simp [PyExpr.convertedAt])
      (by simpa [PyExpr.partsAt] using ⟨(lane_name (by decide)).1, (lane_int (by decide)).1⟩)
  have hvalue : (PyExpr.compare (.name "x") [.notEq] [.constant (.int 0)] : PyExpr (BitVec 64)).valueAt "x" 0 =
      .ok (.bool false) := by simp [PyExpr.valueAt, PyCmpOp.onRats, PyVal.rat, bind, Except.bind]
  refine .of_parts (v := .int 0) ?_ (show Fits 64 0 by decide) (by simp [guardedQuotient, PyExpr.convertedAt]) ?_
  · rw [guardedQuotient, PyExpr.valueAt, hvalue]
    simp [PyExpr.valueAt, PyVal.rat, bind, Except.bind]
  · simp only [guardedQuotient, PyExpr.partsAt, hvalue]
    simpa [PyVal.rat] using ⟨htest, (lane_int (by decide)).1⟩

theorem half_inLane : InLaneAt "x" 1 half :=
  .of_parts (v := .float (1 / 2))
    (by simp [half, PyExpr.valueAt, bodyBinOp, PyVal.rat, bind, Except.bind])
    ⟨1, -1, by decide, by decide, by decide, by norm_num⟩
    (by simp [half, PyExpr.convertedAt, PyExpr.valueAt])
    (by simpa [half, PyExpr.partsAt] using ⟨(lane_name (by decide)).1, (lane_int (by decide)).1⟩)

/-! ## Python's values -/

section Parity
variable {pc : PaCompute F} {param : String} {arr : List ℤ} {body : PyExpr F}
  {func : PyFunc F} {decision : BackendDecision F} {o : ℤ}

/-- The element of the row is Python's value, as `==` compares. -/
def YieldsAt (pc : PaCompute F) (param : String) (arr : List ℤ) (i : ℕ) (x : ℤ) (e : PyExpr F) : Prop :=
  ∃ t vals c v n, pc.run param e arr = .ok (.array t vals) ∧ vals[i]? = some c ∧
    e.valueAt param x = .ok v ∧ c.number = some n ∧ v.rat = n

/-- The closure succeeds on the array, and its elements are Python's values. The same holds
for the operands that Python evaluates on an element, which are bodies themselves. -/
structure ArrowRight (decision : BackendDecision F) (pc : PaCompute F) (param : String)
    (body : PyExpr F) (arr : List ℤ) : Prop where
  returns : ∃ t vals, decision.callArrow pc arr = .ok (.array t vals) ∧ vals.length = arr.length
  yields : ∀ i x, arr[i]? = some x → ∀ p, EvaluatesAt param x body p → YieldsAt pc param arr i x p

/-- The bodies and arrays on which the closure is right. -/
structure ArrowSuits (overflow : ℤ) (param : String) (body : PyExpr F) (arr : List ℤ) : Prop where
  /-- booleans are not mixed with integers -/
  typed : body.paTy.isSome = true
  /-- no constant is out of range -/
  consts : ∀ n ∈ body.passed, Fits 64 n
  /-- no divisor is zero, in skipped arms as well -/
  divisors : DivisorsOk overflow param arr body
  /-- Python's quotients are integers -/
  plain : ∀ x ∈ arr, Plain param x body

/-- The constants fit, or there are no elements. -/
theorem ArrowSuits.consts_or_bare (h : ArrowSuits o param body arr)
    (hlane : ∀ x ∈ arr, InLaneAt param x body) :
    (∀ n ∈ body.intConstants, Fits 64 n) ∨ arr = [] ∧ ∃ n, body.bare = some n := by
  cases hb : body.bare with
  | none => exact .inl fun n hn => h.consts n (by simpa [PyExpr.passed, hb] using hn)
  | some n =>
    cases arr with
    | nil => exact .inr ⟨rfl, n, rfl⟩
    | cons x arr =>
      left
      rw [intConstants_bare hb]
      simpa using fits_of_bare hb (hlane x (by simp))

theorem ArrowSuits.right (hpc : pc.Documented o) (hcall : decision.callArrow pc arr = pc.run param body arr)
    (hint : body.isIntBody param = true) (harr : ∀ x ∈ arr, Fits 64 x)
    (hlane : ∀ x ∈ arr, InLaneAt param x body) (h : ArrowSuits o param body arr) :
    ArrowRight decision pc param body arr := by
  rcases h.consts_or_bare hlane with hconst | ⟨rfl, n, hb⟩
  · -- a part is a typed body, and its divisors are those of the body
    have hrun : ∀ p, (∃ x, EvaluatesAt param x body p) → ∃ t' vals t,
        pc.run param p arr = .ok (.array t' vals) ∧ vals.length = arr.length ∧
          ∀ (i : ℕ) (x : ℤ), arr[i]? = some x →
            ∃ c : PyConst F, vals[i]? = some c ∧ c.OfTy t ∧ c.number = some (p.wordAt o x) := by
      rintro p ⟨x, hp⟩
      obtain ⟨hbody, hty, hsub, hquot⟩ := hp.sub hint
      have hconst' : ∀ n ∈ p.intConstants, Fits 64 n := fun n hn => hconst n (hsub n hn)
      obtain ⟨d, hd⟩ := exists_datum hpc harr hbody hconst' (hty h.typed)
        fun q hq => h.divisors q (hquot q hq)
      obtain ⟨⟨t, hcomp⟩, -⟩ := datum_computes hpc harr hbody hconst' hd
      obtain ⟨t', vals, hrun⟩ := hcomp.run hpc hd
      exact ⟨t', vals, t, hrun⟩
    constructor
    · obtain ⟨t', vals, -, hrun, hlen, -⟩ := hrun body ⟨0, .self body⟩
      exact ⟨t', vals, hcall.trans hrun, hlen⟩
    · intro i x hx p hp
      obtain ⟨t', vals, t, hrun, -, hrows⟩ := hrun p ⟨x, hp⟩
      obtain ⟨c, hc, -, hnum⟩ := hrows i x hx
      obtain ⟨v, hv, hrat⟩ := ((h.plain x (List.mem_of_getElem? hx)).of_evaluates hp).wordAt (hp.sub hint).1
      exact ⟨t', vals, c, v, _, hrun, hc, hv, hnum, hrat⟩
  · obtain ⟨t, harray⟩ := hpc.array (v := .int n) 0 (.inl rfl)
    refine ⟨⟨t, [], ?_, rfl⟩, by simp⟩
    rw [hcall]
    exact run_of_scalar (datum_bare hb) harray

theorem ArrowRight.suits (hpc : pc.Documented o) (hcall : decision.callArrow pc arr = pc.run param body arr)
    (hint : body.isIntBody param = true) (harr : ∀ x ∈ arr, Fits 64 x)
    (hlane : ∀ x ∈ arr, InLaneAt param x body) (h : ArrowRight decision pc param body arr) :
    ArrowSuits o param body arr := by
  obtain ⟨t, vals, hrun, -⟩ := h.returns
  rw [hcall] at hrun
  obtain ⟨d, hd⟩ := exists_datum_of_run hrun
  have hplain : ∀ x ∈ arr, Plain param x body := by
    intro x hx p hp
    obtain ⟨i, hi⟩ := List.mem_iff_getElem?.mp hx
    obtain ⟨t', vals', c, v, n, hrun', hc, hv, hn, hrat⟩ := h.yields i x hi p hp
    refine ⟨v, hv, n, ?_, hrat⟩
    obtain ⟨d', hd'⟩ := exists_datum_of_run hrun'
    obtain ⟨hbody, -⟩ := hp.sub hint
    rcases fits_or_bare hpc hbody hd' with hconst | ⟨k, hk, hbig⟩
    · obtain ⟨⟨u, hcomp⟩, -⟩ := datum_computes hpc harr hbody hconst hd'
      obtain ⟨t'', vals'', hrun'', -, hrows⟩ := hcomp.run hpc hd'
      rw [hrun'] at hrun''
      cases hrun''
      obtain ⟨c', hc', hty, -⟩ := hrows i x hi
      rw [hc] at hc'
      cases hc'
      obtain ⟨k, hk, hfits⟩ := hty.exists_number
      rw [hn] at hk
      cases hk
      exact hfits
    · exact absurd (fits_of_bare hk fun q hq => hlane x hx q (hp.trans hq)) hbig
  rcases fits_or_bare hpc hint hd with hconst | ⟨n, hb, -⟩
  · obtain ⟨⟨u, hcomp⟩, hdiv⟩ := datum_computes hpc harr hint hconst hd
    refine ⟨by rw [hcomp.paTy]; rfl, fun n hn => ?_, hdiv, hplain⟩
    unfold PyExpr.passed at hn
    split at hn
    · cases hn
    · exact hconst n hn
  · obtain ⟨hty, hquot, hpassed⟩ := bare_spec hb
    exact ⟨by rw [hty]; rfl, by simp [hpassed], by simp [DivisorsOk, hquot], hplain⟩

theorem callArrow_of_detect (hdetect : detectArrowKernel func = some decision)
    (hbody : funcBodyExpr func = some (body, param)) :
    decision.callArrow pc arr = pc.run param body arr := by
  simp only [detectArrowKernel, hbody] at hdetect
  split at hdetect
  · cases hdetect
    rfl
  · cases hdetect

/-- On bodies of integer operations and elements that Python evaluates inside the `i64`
range, the closure is right exactly on the typed bodies whose divisors are nonzero in all
arms and whose quotients are integers. -/
theorem arrow_parity_iff (hpc : pc.Documented o) (hdetect : detectArrowKernel func = some decision)
    (hbody : funcBodyExpr func = some (body, param)) (hint : body.isIntBody param = true)
    (harr : ∀ x ∈ arr, Fits 64 x) (hlane : ∀ x ∈ arr, InLaneAt param x body) :
    ArrowRight decision pc param body arr ↔ ArrowSuits o param body arr :=
  have hcall := callArrow_of_detect hdetect hbody
  ⟨fun h => h.suits hpc hcall hint harr hlane, fun h => h.right hpc hcall hint harr hlane⟩

end Parity

theorem arrow_parity_doublePlusOne :
    ∃ decision, detectArrowKernel (plainFunc (.lambda ["x"] doublePlusOne)) = some decision ∧
      ArrowRight decision (hostArrow (BitVec 64)) "x" doublePlusOne [3, -4] := by
  have hlane : ∀ x ∈ [3, -4], InLaneAt "x" x doublePlusOne ∧ Plain "x" x doublePlusOne := fun x hx =>
    lane_doublePlusOne (by revert x; decide)
  have hdetect : detectArrowKernel (plainFunc (.lambda ["x"] doublePlusOne)) = some _ := rfl
  refine ⟨_, hdetect, (arrow_parity_iff hostArrow_documented hdetect rfl (by decide) (by decide)
    fun x hx => (hlane x hx).1).mpr ⟨by decide, by decide, ?_, fun x hx => (hlane x hx).2⟩⟩
  simp [DivisorsOk, doublePlusOne, PyExpr.quotients]

/-- The division of the skipped arm raises, and the quotient of integers is rounded. -/
theorem guardedQuotient_half :
    (∃ decision, detectArrowKernel (plainFunc (.lambda ["x"] guardedQuotient)) = some decision ∧
      guardedQuotient.isIntBody "x" = true ∧ InLaneAt "x" 0 guardedQuotient ∧
      ∀ (o : ℤ) (pc : PaCompute (BitVec 64)), pc.Documented o → ∃ err, decision.callArrow pc [0] = .error err) ∧
    ∃ decision, detectArrowKernel (plainFunc (.lambda ["x"] half)) = some decision ∧
      half.isIntBody "x" = true ∧ InLaneAt "x" 1 half ∧ half.valueAt "x" 1 = .ok (.float (1 / 2)) ∧
      ∀ (o : ℤ) (pc : PaCompute (BitVec 64)), pc.Documented o →
        ∃ t c, decision.callArrow pc [1] = .ok (.array t [c]) ∧ c.number = some 0 := by
  refine ⟨⟨_, rfl, by decide, guardedQuotient_inLane, fun o pc hpc => ?_⟩,
    _, rfl, by decide, half_inLane, ?_, fun o pc hpc => ?_⟩
  · cases hcall : pc.run "x" guardedQuotient [0] with
    | error err => exact ⟨err, hcall⟩
    | ok d =>
      obtain ⟨d', hd'⟩ := exists_datum_of_run hcall
      obtain ⟨-, hdiv⟩ := datum_computes hpc (by decide) (by decide) (by decide) hd'
      exact absurd rfl (hdiv (.constant (.int 10), .name "x") (.head _) 0 (.inl (by decide)))
  · simp [half, PyExpr.valueAt, bodyBinOp, PyVal.rat, bind, Except.bind]
  · obtain ⟨d, hd⟩ : ∃ d, pc.datum "x" [1] half = .ok d := exists_datum hpc (by decide)
      (by decide) (by decide) (by decide) (by simp [DivisorsOk, half, PyExpr.quotients, PyExpr.wordAt])
    obtain ⟨⟨t, hcomp⟩, -⟩ := datum_computes hpc (by decide) (by decide) (by decide) hd
    obtain ⟨t', vals, hrun, hlen, hrows⟩ := hcomp.run hpc hd
    obtain ⟨c, hc, -, hnum⟩ := hrows 0 1 rfl
    obtain ⟨c', rfl⟩ := List.length_eq_one_iff.mp hlen
    cases hc
    exact ⟨t', c, hrun, hnum⟩

end Gilmap
