import Gilmap.Jit.ScalarCorrect
import Gilmap.Library.ParallelMap

/-! # The two-lane loop and whole passes

A kernel of `compile_simd` first maps pairs of elements in its vector loop and hands the
last element of an odd length to the element loop. Calls of scalar and of two-lane
kernels read every input slot once, in order, and write every output slot once.
-/
namespace Gilmap
open Library
variable {F : Type}

/-- The vector of two scalars of one type. -/
def packLanes : Val F → Val F → Val F
  | .i64 a, .i64 b => .i64x2 a b
  | .f64 x, .f64 y => .f64x2 x y
  | _, y => y

theorem slot_succ (base : Addr) (i : ℕ) : slot base i + 8 = slot base (i + 1) := by
  simp only [slot, BitVec.ofNat_add, BitVec.add_mul, BitVec.add_assoc]
  rfl

theorem slot_slot (base : Addr) (s i : ℕ) : slot (slot base s) i = slot base (s + i) := by
  simp only [slot, BitVec.ofNat_add, BitVec.add_mul, BitVec.add_assoc]

theorem slotsOf_vec (d : Dtype) (base : Addr) (i : ℕ) :
    slotsOf (clVecType d) (slot base i) = [slot base i, slot base (i + 1)] := by
  rw [← slot_succ]
  cases d <;> rfl

theorem eq_i64_of_ty {x : Val F} (h : x.ty = .i64) : ∃ a, x = .i64 a := by
  cases x with
  | i64 a => exact ⟨a, rfl⟩
  | _ => cases h

theorem eq_f64_of_ty {x : Val F} (h : x.ty = .f64) : ∃ a, x = .f64 a := by
  cases x with
  | f64 a => exact ⟨a, rfl⟩
  | _ => cases h

theorem packVal_lanes {d : Dtype} {x y : Val F} (hx : x.ty = clType d) (hy : y.ty = clType d) :
    packVal (clVecType d) [x, y] = .ok (packLanes x y) := by
  cases d with
  | i64 =>
    obtain ⟨a, rfl⟩ := eq_i64_of_ty hx
    obtain ⟨b, rfl⟩ := eq_i64_of_ty hy
    rfl
  | f64 =>
    obtain ⟨a, rfl⟩ := eq_f64_of_ty hx
    obtain ⟨b, rfl⟩ := eq_f64_of_ty hy
    rfl

theorem unpackVal_lanes {d : Dtype} {x y : Val F} (hx : x.ty = clType d) (hy : y.ty = clType d)
    (base : Addr) (i : ℕ) : unpackVal (slot base i) (packLanes x y) =
      [(slot base i, x), (slot base (i + 1), y)] := by
  rw [← slot_succ]
  cases d with
  | i64 =>
    obtain ⟨u, rfl⟩ := eq_i64_of_ty hx
    obtain ⟨v, rfl⟩ := eq_i64_of_ty hy
    rfl
  | f64 =>
    obtain ⟨u, rfl⟩ := eq_f64_of_ty hx
    obtain ⟨v, rfl⟩ := eq_f64_of_ty hy
    rfl

/-! ## Kernels that compute a function of the element -/

/-- `g` is compiled from `k`, whose body computes `f` of each element, whatever its variables
were left at; the lanes of a two-lane kernel compute `f` too. -/
inductive Elementwise (fl : FloatOps F) (k : Kernel F) (g : Compiled F) (f : Val F → Val F) : Prop
  | scalar : compileScalar fl k = .ok g →
      (∀ x, x.ty = clType k.inputDtype →
        ∀ ρ, (k.sem fl false x).Computes k.body ρ (.value (f x))) →
      Elementwise fl k g f
  | simd : compileSimd k = .ok g →
      (∀ x, x.ty = clType k.inputDtype → (f x).ty = clType k.outputDtype ∧
        ∀ ρ, (k.sem fl false x).Computes k.body ρ (.value (f x))) →
      (∀ value c, k.singleReturn = some value →
        simdLower k.inputDtype 4 value k.outputDtype = .ok c →
        ∀ x y vars vals, x.ty = clType k.inputDtype → y.ty = clType k.inputDtype →
          vals 4 = packLanes x y → c.eval fl vars vals = .ok (packLanes (f x) (f y))) →
      Elementwise fl k g f

/-! ## The layout of a two-lane kernel -/

/-- The vector loop of `g`: `vecResult` is what it stores for the loaded pair. -/
structure VectorLoop (k : Kernel F) (g : Compiled F) (vecResult : ClExpr F) : Prop where
  entry : ∃ r, codeAfter 0 g.code = .defVar iVar (.iconst 0) ::
    .letVal 3 (.intBin .isub (.value 2) (.urem (.value 2) (.iconst (BitVec.ofNat 64 simdLanes)))) ::
    .jump 1 :: r
  head : ∃ r, codeAfter 1 g.code = .brif (.icmp .ult (.useVar iVar) (.value 3)) 2 3 :: r
  body : ∃ r, codeAfter 2 g.code = .load 4 (clVecType k.inputDtype) (slotExpr 0) ::
    .store vecResult (slotExpr 1) :: bumpIndex simdLanes :: .jump 1 :: r

theorem tailStart_ok (k : Kernel F) : LocalsOk (tailStart k) where
  reserved := le_rfl
  bound h := by simp [tailStart] at h
  typed h := by simp [tailStart] at h
  inj h := by simp [tailStart] at h

section Layout
variable {fl : FloatOps F} {k : Kernel F} {g : Compiled F}

theorem singleReturn_body {value : Expr F} (h : k.singleReturn = some value) :
    k.body = [.ret value] := by
  unfold Kernel.singleReturn at h
  split at h
  · rename_i hb
    cases h
    exact hb
  · cases h

theorem compileSimd_loop (fl : FloatOps F) (h : compileSimd k = .ok g) :
    EnterOk g ∧ ∃ value vecResult bodyCode final, k.singleReturn = some value ∧
      simdLower k.inputDtype 4 value k.outputDtype = .ok vecResult ∧ VectorLoop k g vecResult ∧
      ElementLoop fl k g (tailCx k) (tailStart k) final bodyCode 3 4 6 := by
  unfold compileSimd at h
  cases hsr : k.singleReturn with
  | none => simp [hsr] at h
  | some value =>
    simp only [hsr, Except.bind_eq_ok] at h
    obtain ⟨vecResult, hvec, ⟨body, s⟩, hbody, hdef⟩ := h
    obtain ⟨hcode, hvarTy, hvalTy, hlocals, hverify⟩ := defineFunction_eq_ok hdef
    have he := lowerBody_emits k.body hbody
    have hterm : s.terminated = true := by
      rw [singleReturn_body hsr] at hbody
      obtain ⟨_, s₁, _, hstmt, hrest, -⟩ := lowerBody_cons rfl hbody
      cases hrest
      exact lowerStmt_terminated rfl hstmt
    have hlabels : labelsOf g.code = [0, 1, 2, 3, 4] ++ labelsOf body ++ [5, 6] := by
      simp only [hcode, labelsOf_append]
      rfl
    have hnodup : (labelsOf g.code).Nodup := by
      rw [hlabels]
      apply nodup_around (by decide) he.nodup
      intro a ha ha'
      have : 7 ≤ a := (he.fresh a ha').1
      simp at ha
      omega
    have hvals := he.vals
    have hvars := he.vars
    have hstart : ∀ j < 6, g.valTy j = (tailStart k).valTys.getD j .i64 := fun j hj => by
      rw [hvalTy]
      exact getD_of_prefix hvals hj _
    have hstartVar : ∀ j < 2, g.varTy j = (tailStart k).varTys.getD j .i64 := fun j hj => by
      rw [hvarTy]
      exact getD_of_prefix hvars hj _
    have hpro : simdMainLoop k vecResult ++ (tailPrologue k ++ (body ++ tailEpilogue)) <:+ g.code :=
      ⟨[], by simp [hcode]⟩
    simp only [simdMainLoop, tailPrologue, List.cons_append, List.nil_append] at hpro
    have hepi : tailEpilogue <:+ g.code := ⟨_, hcode.symm⟩
    refine ⟨⟨fun j hj => ?_, hstartVar 0 (by omega)⟩, value, vecResult, body, s, rfl, hvec,
      ⟨⟨_, codeAfter_of_suffix hpro hnodup⟩,
        ⟨_, codeAfter_of_suffix ((List.drop_suffix 4 _).trans hpro) hnodup⟩,
        ⟨_, codeAfter_of_suffix ((List.drop_suffix 6 _).trans hpro) hnodup⟩⟩, ?_⟩
    · rw [hstart j (by omega)]
      interval_cases j <;> rfl
    · exact {
        nodup := hnodup
        verified := by rw [hvarTy, hvalTy, hcode]; exact hverify
        head := ⟨_, codeAfter_of_suffix ((List.drop_suffix 11 _).trans hpro) hnodup⟩
        load := by
          simp only [scalarFallback, hterm, if_true, List.nil_append]
          exact ⟨_, codeAfter_of_suffix ((List.drop_suffix 13 _).trans hpro) hnodup⟩
        exit := ⟨_, codeAfter_of_suffix hepi hnodup⟩
        leave := ⟨_, codeAfter_of_suffix ((List.drop_suffix 4 _).trans hepi) hnodup⟩
        lowered := hbody
        running := rfl
        startLocals := rfl
        startOk := tailStart_ok k
        locals := hlocals.symm
        input := rfl
        output := rfl
        result := rfl
        param := by simp [tailCx]
        paramBound := by simp [tailCx, tailStart]
        resultTy := hstartVar 1 (by omega) }

end Layout

/-! ## The vector loop -/

/-- Control is at the test of the pair that begins with element `i`. -/
structure AtPair (g : Compiled F) (inPtr outPtr len : Addr) (i : ℕ) (l : Local F) : Prop where
  header : AtHeader g 1 inPtr outPtr len i l
  vecEnd : l.vals 3 = .i64 (BitVec.ofNat 64 (len.toNat - len.toNat % 2))

section Pairs
variable {fl : FloatOps F} {k : Kernel F} {g : Compiled F} {vecResult : ClExpr F}
  {inPtr outPtr len : Addr} {i : ℕ} {l : Local F} {m : Mem F}

theorem AtPair.test (fl : FloatOps F) (h : AtPair g inPtr outPtr len i l) (hi : i ≤ len.toNat) :
    l.eval fl (.icmp .ult (.useVar iVar) (.value 3)) >>= Val.truthy =
      .ok (decide (i < len.toNat - len.toNat % 2)) := by
  have hlen := len.isLt
  have hult : (BitVec.ofNat 64 i).ult (BitVec.ofNat 64 (len.toNat - len.toNat % 2)) =
      decide (i < len.toNat - len.toNat % 2) := by
    simp only [BitVec.ult, BitVec.toNat_ofNat]
    rw [Nat.mod_eq_of_lt (by omega), Nat.mod_eq_of_lt (by omega)]
  simp only [Local.eval, ClExpr.eval, h.header.index, h.vecEnd, bind, Except.bind, Val.icmp,
    IntCC.holds, hult, Val.truthy, flagOf]
  by_cases hlt : i < len.toNat - len.toNat % 2 <;> simp [hlt]

/-- The accesses of the pair that begins with element `i`. -/
def pairTrace (inPtr outPtr : Addr) (v : ℕ → Val F) (i : ℕ) : List (Access Addr (Val F)) :=
  [.read (slot inPtr i), .read (slot inPtr (i + 1)), .write (slot outPtr i) (v i),
    .write (slot outPtr (i + 1)) (v (i + 1))]

/-- For the pair that begins with element `i`, the vector code gives `v i` and `v (i + 1)`. -/
structure PairGives (fl : FloatOps F) (k : Kernel F) (vecResult : ClExpr F) (x y : Val F)
    (v : ℕ → Val F) (i : ℕ) : Prop where
  lanes : ∀ vars vals, vals 4 = packLanes x y →
    vecResult.eval fl vars vals = .ok (packLanes (v i) (v (i + 1)))
  first : (v i).ty = clType k.outputDtype
  second : (v (i + 1)).ty = clType k.outputDtype

/-- One turn of the vector loop. -/
theorem VectorLoop.turn (V : VectorLoop k g vecResult)
    (hverify : ∀ item ∈ g.code, Item.verify g.varTy g.valTy item) {v : ℕ → Val F}
    (hpair : PairGives fl k vecResult (m (slot inPtr i)) (m (slot inPtr (i + 1))) v i)
    (hb : Buffers m inPtr outPtr len (clType k.inputDtype))
    (h : AtPair g inPtr outPtr len i l) (hi : i < len.toNat - len.toNat % 2)
    (heven : i % 2 = 0) :
    ∃ n l', Takes (clifNext fl g.code) n (l, m) (pairTrace inPtr outPtr v i)
        (l', writeAll m [(slot outPtr i, v i), (slot outPtr (i + 1), v (i + 1))]) ∧
      AtPair g inPtr outPtr len (i + 2) l' := by
  obtain ⟨r₀, hhead⟩ := V.head
  obtain ⟨r, hbody⟩ := V.body
  have hi₁ : i + 1 < len.toNat := by omega
  have hx := hb.typed i (by omega)
  have hy := hb.typed (i + 1) hi₁
  have htest := h.test fl (by omega)
  rw [decide_eq_true hi] at htest
  have hbr := silent_brif g.code (h.header.ctl.trans (congrArg Control.at hhead)) htest
  have hctl : (l.goto g.code 2).ctl = .at (.load 4 (clVecType k.inputDtype) (slotExpr 0) ::
      .store vecResult (slotExpr 1) :: bumpIndex simdLanes :: .jump 1 :: r) := by
    rw [← hbody]
    rfl
  have haddr : (l.goto g.code 2).evalAddr fl (slotExpr 0) = .ok (slot inPtr i) :=
    evalAddr_slotExpr h.header.inPtr h.header.index
  have hload : soloStep (clifNext fl g.code) (l.goto g.code 2, m) = some
      ([.read (slot inPtr i), .read (slot inPtr (i + 1))],
        ((l.goto g.code 2).letVal 4 (packLanes (m (slot inPtr i)) (m (slot inPtr (i + 1))))).resume
          (.store vecResult (slotExpr 1) :: bumpIndex simdLanes :: .jump 1 :: r), m) := by
    simp [soloStep, clifNext, hctl, haddr, slotsOf_vec, packVal_lanes hx hy]
  generalize hl₁ : ((l.goto g.code 2).letVal 4 _).resume _ = l₁ at hload
  have hvars₁ : l₁.vars = l.vars := by rw [← hl₁]; rfl
  have hvals₁ : ∀ j < 4, l₁.vals j = l.vals j := fun j hj => by
    simp [← hl₁, Local.resume, Local.letVal, Local.goto, Function.update_of_ne (show j ≠ 4 by omega)]
  have hpack : l₁.vals 4 = packLanes (m (slot inPtr i)) (m (slot inPtr (i + 1))) := by
    simp [← hl₁, Local.resume, Local.letVal]
  have hctl₁ : l₁.ctl = .at (.store vecResult (slotExpr 1) :: bumpIndex simdLanes :: .jump 1 :: r) := by
    rw [← hl₁]
    rfl
  have hindex₁ : l₁.vars iVar = .i64 (BitVec.ofNat 64 i) := by rw [hvars₁, h.header.index]
  have haddr₁ : l₁.evalAddr fl (slotExpr 1) = .ok (slot outPtr i) :=
    evalAddr_slotExpr (by rw [hvals₁ 1 (by omega), h.header.outPtr]) hindex₁
  have hresult : l₁.eval fl vecResult = .ok (packLanes (v i) (v (i + 1))) := hpair.lanes _ _ hpack
  have hunpack := unpackVal_lanes hpair.first hpair.second outPtr i
  have hstore : soloStep (clifNext fl g.code) (l₁, m) = some
      ([.write (slot outPtr i) (v i), .write (slot outPtr (i + 1)) (v (i + 1))],
        l₁.resume (bumpIndex simdLanes :: .jump 1 :: r),
        writeAll m [(slot outPtr i, v i), (slot outPtr (i + 1), v (i + 1))]) := by
    simp [soloStep, clifNext, hctl₁, hresult, haddr₁, hunpack]
  have hbump : (l₁.resume (bumpIndex simdLanes :: .jump 1 :: r)).eval fl
      (.intBin .iadd (.useVar iVar) (.iconst (BitVec.ofNat 64 simdLanes))) =
      .ok (.i64 (BitVec.ofNat 64 (i + 2))) := by
    simp [Local.eval, ClExpr.eval, Local.resume, hindex₁, Val.intBin, IntBin.apply, bind, Except.bind,
      BitVec.ofNat_add, simdLanes]
  have hback := (silent_defVar g.code rfl hbump).trans (silent_jump g.code rfl)
  have hrun := ((hbr m).silent_trans (.single hload)).trans ((Takes.single hstore).trans (hback _))
  refine ⟨_, _, hrun, ⟨rfl, ?_, ?_, ?_, ?_, ?_⟩, ?_⟩
  · simp [Local.goto, Local.resume, Local.defVar]
  · exact (hvals₁ 0 (by omega)).trans h.header.inPtr
  · exact (hvals₁ 1 (by omega)).trans h.header.outPtr
  · exact (hvals₁ 2 (by omega)).trans h.header.len
  · exact h.header.typed.takes hverify hrun
  · exact (hvals₁ 3 (by omega)).trans h.vecEnd

theorem VectorLoop.pairs (V : VectorLoop k g vecResult)
    (hverify : ∀ item ∈ g.code, Item.verify g.varTy g.valTy item) {v : ℕ → Val F} (c : ℕ)
    (hc : i + 2 * c ≤ len.toNat - len.toNat % 2) (heven : i % 2 = 0)
    (hpair : ∀ j < len.toNat - len.toNat % 2, j % 2 = 0 →
      PairGives fl k vecResult (m (slot inPtr j)) (m (slot inPtr (j + 1))) v j)
    (hb : Buffers m inPtr outPtr len (clType k.inputDtype))
    (h : AtPair g inPtr outPtr len i l) :
    ∃ n tr l' m', Takes (clifNext fl g.code) n (l, m) tr (l', m') ∧
      AtPair g inPtr outPtr len (i + 2 * c) l' ∧
      readsOf tr = (List.range' i (2 * c)).map (slot inPtr) ∧
      writesOf tr = (List.range' i (2 * c)).map fun j => (slot outPtr j, v j) := by
  induction c generalizing i l m with
  | zero => exact ⟨0, [], l, m, .refl _, h, rfl, rfl⟩
  | succ c ih =>
    obtain ⟨n₁, l₁, hrun₁, hat₁⟩ :=
      V.turn hverify (hpair i (by omega) heven) hb h (by omega) heven
    have hws : ∀ w ∈ [(slot outPtr i, v i), (slot outPtr (i + 1), v (i + 1))],
        ∃ j < len.toNat, w.1 = slot outPtr j := by
      intro w hw
      simp only [List.mem_cons, List.not_mem_nil, or_false] at hw
      rcases hw with rfl | rfl
      · exact ⟨i, by omega, rfl⟩
      · exact ⟨i + 1, by omega, rfl⟩
    obtain ⟨n₂, tr₂, l₂, m₂, hrun₂, hat₂, hreads, hwrites⟩ :=
      ih (by omega) (by omega) (fun j hj hje => by
        rw [hb.input_kept hws (by omega), hb.input_kept hws (by omega)]
        exact hpair j hj hje) (hb.written hws) hat₁
    have hrange : List.range' i (2 * (c + 1)) = i :: (i + 1) :: List.range' (i + 2) (2 * c) := by
      rw [show 2 * (c + 1) = 2 * c + 1 + 1 by ring, List.range'_succ, List.range'_succ]
    refine ⟨n₁ + n₂, _, l₂, m₂, hrun₁.trans hrun₂, ?_, ?_, ?_⟩
    · rwa [show i + 2 * (c + 1) = i + 2 + 2 * c by ring]
    · rw [readsOf_append, hreads, hrange]
      rfl
    · rw [writesOf_append, hwrites, hrange]
      rfl

/-- A call reaches the test of the first pair. -/
theorem VectorLoop.enter (fl : FloatOps F) (V : VectorLoop k g vecResult) (hg : EnterOk g)
    (hverify : ∀ item ∈ g.code, Item.verify g.varTy g.valTy item) (inPtr outPtr len : Addr) :
    ∃ l, Silent fl g.code 3 (g.enter fl inPtr outPtr len) l ∧ AtPair g inPtr outPtr len 0 l := by
  obtain ⟨r, hentry⟩ := V.entry
  set l₀ := g.enter fl inPtr outPtr len with hl₀
  have hctl : l₀.ctl = .at (.defVar iVar (.iconst 0) :: .letVal 3 (.intBin .isub (.value 2)
      (.urem (.value 2) (.iconst (BitVec.ofNat 64 simdLanes)))) :: .jump 1 :: r) := by
    rw [← hentry]
    rfl
  have hset : Silent fl g.code 1 l₀ _ := silent_defVar g.code (x := .i64 0) hctl rfl
  have hend : ((l₀.defVar iVar (.i64 0)).resume (.letVal 3 (.intBin .isub (.value 2)
      (.urem (.value 2) (.iconst (BitVec.ofNat 64 simdLanes)))) :: .jump 1 :: r)).eval fl
      (.intBin .isub (.value 2) (.urem (.value 2) (.iconst (BitVec.ofNat 64 simdLanes)))) =
      .ok (.i64 (BitVec.ofNat 64 (len.toNat - len.toNat % 2))) := by
    have hsub : len - len % 2 = BitVec.ofNat 64 (len.toNat - len.toNat % 2) := by
      have := len.isLt
      apply BitVec.eq_of_toNat_eq
      simp only [BitVec.toNat_sub, BitVec.toNat_umod, BitVec.toNat_ofNat,
        show BitVec.toNat (2 : Addr) = 2 from rfl]
      omega
    have hlen : l₀.vals 2 = .i64 len := rfl
    have hne : (BitVec.ofNat 64 simdLanes) ≠ 0 := by decide
    simp only [Local.eval, ClExpr.eval, Local.resume, Local.defVar, hlen, Val.urem, hne, if_false,
      bind, Except.bind, Val.intBin, IntBin.apply]
    exact congrArg (fun b => Except.ok (Val.i64 b)) hsub
  have hrun := hset.trans ((silent_letVal g.code rfl hend).trans (silent_jump g.code rfl))
  refine ⟨_, hrun, ⟨rfl, ?_, rfl, rfl, rfl,
    (enter_typed hg hverify inPtr outPtr len).takes hverify (hrun fun _ => .i64 0)⟩, ?_⟩
  · simp [Local.goto, Local.resume, Local.defVar, Local.letVal]
  · simp [Local.goto, Local.resume, Local.letVal]

/-- Behind the last pair the element loop takes over. -/
theorem VectorLoop.leave (fl : FloatOps F) (V : VectorLoop k g vecResult)
    (hverify : ∀ item ∈ g.code, Item.verify g.varTy g.valTy item)
    (hi : i = len.toNat - len.toNat % 2) (h : AtPair g inPtr outPtr len i l) :
    ∃ l', Silent fl g.code 1 l l' ∧ AtHeader g 3 inPtr outPtr len i l' := by
  obtain ⟨r, hhead⟩ := V.head
  have htest := h.test fl (by omega)
  rw [decide_eq_false (by omega)] at htest
  have hbr := silent_brif g.code (h.header.ctl.trans (congrArg Control.at hhead)) htest
  exact ⟨_, hbr, rfl, h.header.index, h.header.inPtr, h.header.outPtr, h.header.len,
    h.header.typed.goto hverify 3⟩

end Pairs

/-! ## Whole calls -/

section Calls
variable {fl : FloatOps F} {k : Kernel F} {g : Compiled F} {inPtr outPtr len : Addr} {m : Mem F}

theorem readsOf_roundTrace (inPtr outPtr : Addr) (v : ℕ → Val F) (i c : ℕ) :
    readsOf (roundTrace inPtr outPtr v i c) = (List.range' i c).map (slot inPtr) := by
  induction c generalizing i with
  | zero => rfl
  | succ c ih =>
    rw [roundTrace, List.range'_succ, List.flatMap_cons, readsOf_append, List.map_cons]
    exact congrArg (slot inPtr i :: ·) (ih (i + 1))

theorem writesOf_roundTrace (inPtr outPtr : Addr) (v : ℕ → Val F) (i c : ℕ) :
    writesOf (roundTrace inPtr outPtr v i c) =
      (List.range' i c).map fun j => (slot outPtr j, v j) := by
  induction c generalizing i with
  | zero => rfl
  | succ c ih =>
    rw [roundTrace, List.range'_succ, List.flatMap_cons, writesOf_append, List.map_cons]
    exact congrArg ((slot outPtr i, v i) :: ·) (ih (i + 1))

/-- A call runs to its end, reads each input slot and writes each output slot once; element
`i` gets `v i`. -/
def FullPass (fl : FloatOps F) (g : Compiled F) (v : ℕ → Val F) (inPtr outPtr len : Addr)
    (m : Mem F) : Prop :=
  ∃ n tr l' m', Takes (clifNext fl g.code) n (g.enter fl inPtr outPtr len, m) tr (l', m') ∧
    l'.ctl = .returned ∧ readsOf tr = (List.range len.toNat).map (slot inPtr) ∧
    writesOf tr = (List.range len.toNat).map fun i => (slot outPtr i, v i)

theorem compileScalar_fullPass (hc : compileScalar fl k = .ok g) {v : ℕ → Val F}
    (hv : ∀ i < len.toNat,
      ∀ ρ, (k.sem fl false (m (slot inPtr i))).Computes k.body ρ (.value (v i)))
    (hb : Buffers m inPtr outPtr len (clType k.inputDtype)) : FullPass fl g v inPtr outPtr len m := by
  obtain ⟨hg, ⟨_, hentry⟩, bodyCode, final, E⟩ := compileScalar_loop hc
  obtain ⟨l, hs, hat⟩ := enter_header fl hg E.verified hentry inPtr outPtr len
  obtain ⟨n, l₁, hrun, hat₁⟩ := E.rounds v hb len.toNat (by omega)
    (fun j _ hj => hv j (by omega)) hat
  rw [Nat.zero_add] at hat₁
  obtain ⟨l₂, hend, hret⟩ := E.return hat₁
  refine ⟨_, _, l₂, _, ((hs m).silent_trans hrun).trans (hend _), hret, ?_, ?_⟩
  · rw [readsOf_append, readsOf_roundTrace, List.range_eq_range']
    exact List.append_nil _
  · rw [writesOf_append, writesOf_roundTrace, List.range_eq_range']
    exact List.append_nil _

theorem compileSimd_fullPass (hc : compileSimd k = .ok g) {v : ℕ → Val F}
    (hpair : ∀ value c, k.singleReturn = some value →
      simdLower k.inputDtype 4 value k.outputDtype = .ok c →
      ∀ j < len.toNat - len.toNat % 2, j % 2 = 0 →
        PairGives fl k c (m (slot inPtr j)) (m (slot inPtr (j + 1))) v j)
    (htail : ∀ i, len.toNat - len.toNat % 2 ≤ i → i < len.toNat → ∀ ρ,
      (k.sem fl false (m (slot inPtr i))).Computes k.body ρ (.value (v i)))
    (hb : Buffers m inPtr outPtr len (clType k.inputDtype)) : FullPass fl g v inPtr outPtr len m := by
  obtain ⟨hg, value, vecResult, bodyCode, final, hsr, hvec, V, E⟩ := compileSimd_loop fl hc
  obtain ⟨l, hs, hat⟩ := V.enter fl hg E.verified inPtr outPtr len
  obtain ⟨n, tr, l₁, m₁, hrun, hat₁, hreads, hwrites⟩ := V.pairs E.verified (len.toNat / 2)
    (by omega) rfl (hpair value vecResult hsr hvec) hb hat
  rw [Nat.zero_add] at hat₁
  obtain ⟨l₂, hleave, hat₂⟩ := V.leave fl E.verified (by omega) hat₁
  have hm₁ : m₁ = writeAll m (writesOf tr) := hrun.mem_eq
  have hws : ∀ w ∈ writesOf tr, ∃ j < len.toNat, w.1 = slot outPtr j := by
    intro w hw
    rw [hwrites] at hw
    obtain ⟨j, hj, rfl⟩ := List.mem_map.mp hw
    exact ⟨j, by have := List.mem_range'_1.mp hj; omega, rfl⟩
  obtain ⟨n₃, l₃, hrun₃, hat₃⟩ := E.rounds v (hb.written hws) (len.toNat % 2) (by omega)
    (fun j hge hj => by
      rw [hb.input_kept hws (by omega)]
      exact htail j (by omega) (by omega)) hat₂
  rw [← hm₁] at hrun₃
  rw [show 2 * (len.toNat / 2) + len.toNat % 2 = len.toNat by omega] at hat₃
  obtain ⟨l₄, hend, hret⟩ := E.return hat₃
  have hsplit : List.range len.toNat =
      List.range' 0 (2 * (len.toNat / 2)) ++ List.range' (2 * (len.toNat / 2)) (len.toNat % 2) := by
    have happ := List.range'_append_1 (s := 0) (m := 2 * (len.toNat / 2)) (n := len.toNat % 2)
    rw [Nat.zero_add, show 2 * (len.toNat / 2) + len.toNat % 2 = len.toNat by omega] at happ
    rw [List.range_eq_range', happ]
  refine ⟨_, _, l₄, _, ((hs m).silent_trans hrun).trans
    (((hleave _).silent_trans hrun₃).trans (hend _)), hret, ?_, ?_⟩
  · rw [readsOf_append, readsOf_append, hreads, readsOf_roundTrace, hsplit, List.map_append]
    simp [readsOf]
  · rw [writesOf_append, writesOf_append, hwrites, writesOf_roundTrace, hsplit, List.map_append]
    simp [writesOf]

end Calls

end Gilmap
