import Gilmap.Clif.Typing
import Gilmap.Jit.Simulation

/-! # The element loop

Both code paths run the lowered body inside the same loop: test the index, load the
element, run the body, store the result, bump the index. One round reads one input slot
and writes one output slot; the body starts from whatever the variables of the previous
element left behind.
-/
namespace Gilmap
open Library
variable {F : Type}

/-- The slot of element `i` in the buffer at `base`. -/
def slot (base : Addr) (i : ℕ) : Addr := base + BitVec.ofNat 64 i * 8

/-- The element loop of `g`: block `header` tests the index, `entry` loads the element and
`out` leaves the loop. `start` and `final` are the states around the lowering of the body. -/
structure ElementLoop (fl : FloatOps F) (k : Kernel F) (g : Compiled F) (cx : LowerCx)
    (start final : LowerState) (bodyCode : List (Item F)) (header entry out : ℕ) : Prop where
  nodup : (labelsOf g.code).Nodup
  verified : ∀ item ∈ g.code, Item.verify g.varTy g.valTy item
  head : ∃ r, codeAfter header g.code =
    .brif (.icmp .ult (.useVar iVar) (.value 2)) entry out :: r
  load : ∃ r, codeAfter entry g.code = .load cx.param (clType k.inputDtype) (slotExpr 0) ::
    (bodyCode ++ (scalarFallback fl k final cx.elemExit ++ r))
  exit : ∃ r, codeAfter cx.elemExit g.code =
    .store (.useVar resultVar) (slotExpr 1) :: bumpIndex 1 :: .jump header :: r
  leave : ∃ r, codeAfter out g.code = .ret :: r
  lowered : lowerBody cx [] k.body start = .ok (bodyCode, final)
  running : start.terminated = false
  startLocals : start.locals = []
  startOk : LocalsOk start
  locals : final.locals = g.locals
  input : cx.inputDtype = k.inputDtype
  output : cx.outputDtype = k.outputDtype
  result : cx.resultVar = resultVar
  param : 2 < cx.param
  paramBound : cx.param < start.valTys.length
  resultTy : g.varTy resultVar = clType k.outputDtype

/-- What the variables of the locals hold when a round begins. -/
def leftovers (Γ : Locals) (l : Local F) : Env F := fun name =>
  (Γ.lookup name).map fun p => l.vars p.1

/-- Control is at the test of element `i`. -/
structure AtHeader (g : Compiled F) (header : ℕ) (inPtr outPtr len : Addr) (i : ℕ)
    (l : Local F) : Prop where
  ctl : l.ctl = .at (codeAfter header g.code)
  index : l.vars iVar = .i64 (BitVec.ofNat 64 i)
  inPtr : l.vals 0 = .i64 inPtr
  outPtr : l.vals 1 = .i64 outPtr
  len : l.vals 2 = .i64 len
  typed : Typed g.varTy g.valTy l

section Round
variable {fl : FloatOps F} {k : Kernel F} {g : Compiled F} {cx : LowerCx}
  {start final : LowerState} {bodyCode : List (Item F)} {header entry out : ℕ}
  {inPtr outPtr len : Addr} {i : ℕ} {l l' : Local F} {m m' : Mem F}

theorem ElementLoop.surrounds (E : ElementLoop fl k g cx start final bodyCode header entry out)
    (x : Val F) : Lowered g.code cx (k.sem fl false x) g.locals where
  nodup := E.nodup
  inputDtype := E.input.symm
  outputDtype := E.output.symm
  locals := by
    have hd := lowerBody_declares k.body E.running E.lowered
    rw [E.startLocals, E.locals] at hd
    funext name
    show (declareBody k.body []).lookup name = _
    rw [← Locals.lookup_dtypes, hd]
    rfl
  permissive := rfl
  result := E.result
  bound h := ((lowerBody_emits k.body E.lowered).localsOk E.startOk).bound (E.locals ▸ h) |>.1
  inj h h' := ((lowerBody_emits k.body E.lowered).localsOk E.startOk).inj (E.locals ▸ h) (E.locals ▸ h')

theorem leftovers_matches (x : Val F) (hx : l.vals cx.param = x) :
    Matches cx (k.sem fl false x) g.locals (leftovers g.locals l) l where
  vars h := by simp [leftovers, h]
  param := hx

theorem evalAddr_slotExpr {base : ℕ} {p : Addr} (hbase : l.vals base = .i64 p)
    (hi : l.vars iVar = .i64 (BitVec.ofNat 64 i)) :
    l.evalAddr fl (slotExpr base) = .ok (slot p i) := by
  have heval : l.eval fl (slotExpr base) = .ok (.i64 (slot p i)) := by
    simp [Local.eval, slotExpr, ClExpr.eval, hbase, hi, Val.intBin, IntBin.apply, slot, bind,
      Except.bind]
  rw [Local.evalAddr, heval]

/-- The test of the index. -/
theorem AtHeader.test (fl : FloatOps F) (h : AtHeader g header inPtr outPtr len i l) (hi : i ≤ len.toNat) :
    l.eval fl (.icmp .ult (.useVar iVar) (.value 2)) >>= Val.truthy = .ok (decide (i < len.toNat)) := by
  have hlen := len.isLt
  have hult : (BitVec.ofNat 64 i).ult len = decide (i < len.toNat) := by
    simp only [BitVec.ult, BitVec.toNat_ofNat]
    rw [Nat.mod_eq_of_lt (by omega)]
  simp only [Local.eval, ClExpr.eval, h.index, h.len, bind, Except.bind, Val.icmp, IntCC.holds,
    hult, Val.truthy, flagOf]
  by_cases hlt : i < len.toNat <;> simp [hlt]

/-- Testing the index and loading the element. -/
theorem ElementLoop.enter (E : ElementLoop fl k g cx start final bodyCode header entry out)
    (h : AtHeader g header inPtr outPtr len i l) (hi : i < len.toNat)
    (hx : (m (slot inPtr i)).ty = clType k.inputDtype) :
    ∃ l' r, Takes (clifNext fl g.code) 2 (l, m) [.read (slot inPtr i)] (l', m) ∧
      l'.ctl = .at (bodyCode ++ (scalarFallback fl k final cx.elemExit ++ r)) ∧
      bodyCode ++ (scalarFallback fl k final cx.elemExit ++ r) <:+ g.code ∧
      l'.vars = l.vars ∧ l'.vals cx.param = m (slot inPtr i) ∧ ∀ j < 3, l'.vals j = l.vals j := by
  obtain ⟨r₀, hhead⟩ := E.head
  obtain ⟨r, hload⟩ := E.load
  have hsuffix := (List.suffix_cons _ _).trans (hload ▸ codeAfter_suffix entry g.code)
  have htest := h.test fl (le_of_lt hi)
  rw [decide_eq_true hi] at htest
  have hbr := silent_brif g.code (h.ctl.trans (congrArg Control.at hhead)) htest
  refine ⟨((l.goto g.code entry).letVal cx.param (m (slot inPtr i))).resume _, r, ?_, rfl, hsuffix,
    rfl, by simp [Local.resume, Local.letVal], ?_⟩
  · refine (hbr m).silent_trans (.single ?_)
    have haddr : (l.goto g.code entry).evalAddr fl (slotExpr 0) = .ok (slot inPtr i) :=
      evalAddr_slotExpr h.inPtr h.index
    have hctl : (l.goto g.code entry).ctl = .at (.load cx.param (clType k.inputDtype) (slotExpr 0) ::
        (bodyCode ++ (scalarFallback fl k final cx.elemExit ++ r))) := by rw [← hload]; rfl
    have hslots : slotsOf (clType k.inputDtype) (slot inPtr i) = [slot inPtr i] := by
      cases k.inputDtype <;> rfl
    simp [soloStep, clifNext, hctl, haddr, hslots, packVal, hx]
  · intro j hj
    have := E.param
    simp [Local.resume, Local.letVal, Local.goto, Function.update_of_ne (show j ≠ cx.param by omega)]

/-- Storing the result and closing the round. -/
theorem ElementLoop.finish (E : ElementLoop fl k g cx start final bodyCode header entry out)
    (hctl : l.ctl = .at (codeAfter cx.elemExit g.code)) (htyped : Typed g.varTy g.valTy l)
    (hindex : l.vars iVar = .i64 (BitVec.ofNat 64 i)) (hin : l.vals 0 = .i64 inPtr)
    (hout : l.vals 1 = .i64 outPtr) (hlen : l.vals 2 = .i64 len) :
    ∃ l', Takes (clifNext fl g.code) 3 (l, m) [.write (slot outPtr i) (l.vars resultVar)]
        (l', Function.update m (slot outPtr i) (l.vars resultVar)) ∧
      AtHeader g header inPtr outPtr len (i + 1) l' ∧
      leftovers g.locals l' = leftovers g.locals l := by
  obtain ⟨r, hexit⟩ := E.exit
  rw [hexit] at hctl
  have hty : (l.vars resultVar).ty = clType k.outputDtype := by
    rw [htyped.vars, E.resultTy]
  have hunpack : unpackVal (slot outPtr i) (l.vars resultVar) =
      [(slot outPtr i, l.vars resultVar)] := by
    cases hv : l.vars resultVar with
    | i8 | i64 | f64 => rfl
    | i64x2 | f64x2 =>
      rw [hv] at hty
      cases hd : k.outputDtype <;> rw [hd] at hty <;> cases hty
  have haddr : l.evalAddr fl (slotExpr 1) = .ok (slot outPtr i) := evalAddr_slotExpr hout hindex
  have hstore : soloStep (clifNext fl g.code) (l, m) = some ([.write (slot outPtr i) (l.vars resultVar)],
      l.resume (bumpIndex 1 :: .jump header :: r),
      Function.update m (slot outPtr i) (l.vars resultVar)) := by
    simp [soloStep, clifNext, hctl, Local.eval, ClExpr.eval, haddr, hunpack, writeAll]
  have hbump : (l.resume (bumpIndex 1 :: .jump header :: r)).eval fl
      (.intBin .iadd (.useVar iVar) (.iconst (BitVec.ofNat 64 1))) =
      .ok (.i64 (BitVec.ofNat 64 (i + 1))) := by
    simp [Local.eval, ClExpr.eval, Local.resume, hindex, Val.intBin, IntBin.apply, bind, Except.bind,
      BitVec.ofNat_add]
  have hsteps := (silent_defVar g.code rfl hbump).trans (silent_jump g.code rfl)
  have hrun := (Takes.single hstore).trans (hsteps _)
  refine ⟨_, hrun, ⟨rfl, ?_, hin, hout, hlen, ?_⟩, ?_⟩
  · simp [Local.goto, Local.resume, Local.defVar]
  · exact htyped.takes E.verified hrun
  · funext name
    simp only [leftovers]
    cases hl : g.locals.lookup name with
    | none => rfl
    | some p =>
      have hb := (E.surrounds (l.vars resultVar)).bound hl
      have hne : p.1 ≠ iVar := by unfold iVar; omega
      simp [Local.goto, Local.resume, Local.defVar, Function.update_of_ne hne]

/-- How the round of element `i` ends when its body has the result `r`. -/
def RoundEnds (fl : FloatOps F) (g : Compiled F) (header : ℕ) (inPtr outPtr len : Addr) (i : ℕ)
    (l : Local F) (m : Mem F) : ElemResult F → Prop
  | .value v => ∃ n l', Takes (clifNext fl g.code) n (l, m)
      [.read (slot inPtr i), .write (slot outPtr i) v] (l', Function.update m (slot outPtr i) v) ∧
      AtHeader g header inPtr outPtr len (i + 1) l'
  | .fault f => ∃ n l', Takes (clifNext fl g.code) n (l, m) [.read (slot inPtr i)] (l', m) ∧
      l'.ctl = .faulted f
  | .diverge => ∀ n, ∃ k l', n ≤ k ∧
      Takes (clifNext fl g.code) k (l, m) [.read (slot inPtr i)] (l', m)

/-- One round does what the permissive semantics computes from the leftovers. -/
theorem ElementLoop.round (E : ElementLoop fl k g cx start final bodyCode header entry out)
    (h : AtHeader g header inPtr outPtr len i l) (hi : i < len.toNat)
    (hx : (m (slot inPtr i)).ty = clType k.inputDtype) {r : ElemResult F}
    (hr : (k.sem fl false (m (slot inPtr i))).Computes k.body (leftovers g.locals l) r) :
    RoundEnds fl g header inPtr outPtr len i l m r := by
  obtain ⟨l₁, rest, hload, hctl, hsuffix, hvars, hparam, hvals⟩ := E.enter h hi hx
  have hleft : leftovers g.locals l = leftovers g.locals l₁ := by
    unfold leftovers
    rw [hvars]
  have hfollows := fun fuel => lowerBody_follows (E.surrounds (m (slot inPtr i))) fuel k.body
    E.lowered (fun hn => E.locals ▸ hn) E.paramBound hsuffix E.running hctl
    (leftovers_matches _ hparam)
  rw [← hleft] at hfollows
  cases hr with
  | runsForever hd =>
    intro n
    have hn := hfollows n
    rw [hd n] at hn
    obtain ⟨j, l₂, hj, hs⟩ := hn
    exact ⟨2 + j, l₂, by omega, hload.trans (hs m)⟩
  | @ends fuel o _ ho hres =>
    have hn := hfollows fuel
    rw [ho] at hn
    obtain ⟨j, l₂, hs, hframe, hlands⟩ := hn
    have hparam := E.param
    have hbound := E.paramBound
    have hkeep : ∀ a < 3, l₂.vals a = l.vals a := fun a ha =>
      (hframe.vals a (by omega)).trans (hvals a ha)
    have hrun := hload.trans (hs m)
    -- a body that has set the result variable and reached the exit block
    have hstored : ∀ {n l₃}, Silent fl g.code n l₂ l₃ → l₃.ctl = .at (codeAfter cx.elemExit g.code) →
        l₃.vars iVar = l₂.vars iVar → l₃.vals = l₂.vals →
        RoundEnds fl g header inPtr outPtr len i l m (.value (l₃.vars resultVar)) := by
      intro n l₃ hs₃ hctl₃ hindex₃ hvals₃
      have hrun₃ := hrun.trans (hs₃ m)
      obtain ⟨l₄, hfin, hat, -⟩ := E.finish (m := m) hctl₃ (h.typed.takes E.verified hrun₃)
        (by rw [hindex₃, hframe.index, hvars, h.index])
        (by rw [hvals₃, hkeep 0 (by omega), h.inPtr]) (by rw [hvals₃, hkeep 1 (by omega), h.outPtr])
        (by rw [hvals₃, hkeep 2 (by omega), h.len])
      exact ⟨_, l₄, hrun₃.trans hfin, hat⟩
    cases o with
    | error f =>
      cases hres
      exact ⟨2 + j, l₂, hrun, hlands⟩
    | ok flow =>
      cases flow with
      | brk ρ' =>
        obtain ⟨-, _, _, he, -⟩ := hlands
        cases he
      | cont ρ' =>
        obtain ⟨-, _, _, he, -⟩ := hlands
        cases he
      | ret v ρ' =>
        obtain ⟨-, hv, hctl₂⟩ := hlands
        cases hres
        rw [← hv]
        exact hstored (.refl l₂) hctl₂ rfl rfl
      | normal ρ' =>
        obtain ⟨hctl₂, -⟩ := hlands
        cases hres
        cases ht : final.terminated with
        | true => exact absurd ho (lowerBody_not_normal E.running E.lowered ht _ fuel _ ρ')
        | false =>
          simp only [scalarFallback, ht, Bool.false_eq_true, if_false, List.cons_append,
            List.nil_append] at hctl₂
          have hzero : l₂.eval fl (defaultReturn k.outputDtype fl) =
              .ok (Val.zeroOf fl (clType k.outputDtype)) := by
            cases k.outputDtype <;> rfl
          have hset := silent_defVar g.code hctl₂ hzero
          have hend := hstored (hset.trans (silent_jump g.code rfl)) rfl
            (by simp [Local.goto, Local.resume, Local.defVar, iVar, resultVar]) rfl
          simp only [Local.goto, Local.resume, Local.defVar, Function.update_self] at hend
          exact hend

/-! ## Consecutive elements -/

/-- Two buffers of `len` slots that fit in the address space and do not overlap, the first
holding elements of type `ty`. -/
structure Buffers (m : Mem F) (inPtr outPtr len : Addr) (ty : ClTy) : Prop where
  inFits : inPtr.toNat + 8 * len.toNat ≤ 2 ^ 64
  outFits : outPtr.toNat + 8 * len.toNat ≤ 2 ^ 64
  apart : inPtr.toNat + 8 * len.toNat ≤ outPtr.toNat ∨ outPtr.toNat + 8 * len.toNat ≤ inPtr.toNat
  typed : ∀ i < len.toNat, (m (slot inPtr i)).ty = ty

theorem slot_toNat {base : Addr} {n i : ℕ} (h : base.toNat + 8 * n ≤ 2 ^ 64) (hi : i < n) :
    (slot base i).toNat = base.toNat + 8 * i := by
  simp only [slot, BitVec.toNat_add, BitVec.toNat_mul, BitVec.toNat_ofNat]
  rw [Nat.mod_eq_of_lt (show i < 2 ^ 64 by omega), show BitVec.toNat (8 : Addr) = 8 from rfl]
  omega

theorem slot_inj {base : Addr} {n i j : ℕ} (h : base.toNat + 8 * n ≤ 2 ^ 64) (hi : i < n)
    (hj : j < n) (he : slot base i = slot base j) : i = j := by
  have := congrArg BitVec.toNat he
  rw [slot_toNat h hi, slot_toNat h hj] at this
  omega

theorem Buffers.slot_ne {ty : ClTy} (hb : Buffers m inPtr outPtr len ty) {j : ℕ}
    (hi : i < len.toNat) (hj : j < len.toNat) : slot inPtr i ≠ slot outPtr j := by
  intro he
  have := congrArg BitVec.toNat he
  rw [slot_toNat hb.inFits hi, slot_toNat hb.outFits hj] at this
  have := hb.apart
  omega

/-- The accesses of the rounds of `c` elements from `i` on. -/
def roundTrace (inPtr outPtr : Addr) (v : ℕ → Val F) (i c : ℕ) : List (Access Addr (Val F)) :=
  (List.range' i c).flatMap fun j => [.read (slot inPtr j), .write (slot outPtr j) (v j)]

/-- The results of `c` elements from `i` on. -/
def storeRounds (m : Mem F) (outPtr : Addr) (v : ℕ → Val F) (i c : ℕ) : Mem F :=
  writeAll m ((List.range' i c).map fun j => (slot outPtr j, v j))

theorem Buffers.input_kept {ty : ClTy} (hb : Buffers m inPtr outPtr len ty)
    {ws : List (Addr × Val F)} (hws : ∀ w ∈ ws, ∃ j < len.toNat, w.1 = slot outPtr j) {j : ℕ}
    (hj : j < len.toNat) : writeAll m ws (slot inPtr j) = m (slot inPtr j) := by
  apply writeAll_of_notMem
  intro w hw he
  obtain ⟨i, hi, hwi⟩ := hws w hw
  exact hb.slot_ne hj hi (he.symm.trans hwi)

theorem Buffers.written {ty : ClTy} (hb : Buffers m inPtr outPtr len ty)
    {ws : List (Addr × Val F)} (hws : ∀ w ∈ ws, ∃ j < len.toNat, w.1 = slot outPtr j) :
    Buffers (writeAll m ws) inPtr outPtr len ty :=
  { hb with
    typed := fun j hj => by
      rw [hb.input_kept hws hj]
      exact hb.typed j hj }

/-- Elements that get values are processed one after the other. -/
theorem ElementLoop.rounds (E : ElementLoop fl k g cx start final bodyCode header entry out)
    (v : ℕ → Val F) (hb : Buffers m inPtr outPtr len (clType k.inputDtype)) (c : ℕ)
    (hc : i + c ≤ len.toNat)
    (hv : ∀ j, i ≤ j → j < i + c →
      ∀ ρ, (k.sem fl false (m (slot inPtr j))).Computes k.body ρ (.value (v j)))
    (h : AtHeader g header inPtr outPtr len i l) :
    ∃ n l', Takes (clifNext fl g.code) n (l, m) (roundTrace inPtr outPtr v i c)
        (l', storeRounds m outPtr v i c) ∧ AtHeader g header inPtr outPtr len (i + c) l' := by
  induction c generalizing i l m with
  | zero => exact ⟨0, l, .refl _, h⟩
  | succ c ih =>
    obtain ⟨n₁, l₁, hrun₁, hat₁⟩ := E.round h (by omega) (hb.typed i (by omega))
      (hv i le_rfl (by omega) (leftovers g.locals l))
    have hws : ∀ w ∈ [(slot outPtr i, v i)], ∃ j < len.toNat, w.1 = slot outPtr j :=
      fun w hw => ⟨i, by omega, congrArg Prod.fst (List.mem_singleton.mp hw)⟩
    obtain ⟨n₂, l₂, hrun₂, hat₂⟩ := ih (hb.written hws) (by omega)
      (fun j h₁ h₂ => by
        rw [hb.input_kept hws (by omega)]
        exact hv j (by omega) (by omega)) hat₁
    refine ⟨n₁ + n₂, l₂, ?_, by rwa [show i + (c + 1) = i + 1 + c by omega]⟩
    have hrun := hrun₁.trans hrun₂
    simpa [roundTrace, storeRounds, List.range'_succ, writeAll] using hrun

/-- Behind the last element the function returns. -/
theorem ElementLoop.return (E : ElementLoop fl k g cx start final bodyCode header entry out)
    (h : AtHeader g header inPtr outPtr len len.toNat l) :
    ∃ l', Silent fl g.code 2 l l' ∧ l'.ctl = .returned := by
  obtain ⟨r, hhead⟩ := E.head
  obtain ⟨r', hleave⟩ := E.leave
  have htest := h.test fl le_rfl
  rw [decide_eq_false (Nat.lt_irrefl _)] at htest
  have hbr := silent_brif g.code (h.ctl.trans (congrArg Control.at hhead)) htest
  have hret : clifNext fl g.code (l.goto g.code out) =
      some (.tau { l.goto g.code out with ctl := .returned }) := by
    have hctl : (l.goto g.code out).ctl = .at (.ret :: r') := by rw [← hleave]; rfl
    simp [clifNext, hctl]
  exact ⟨_, hbr.trans (.of_tau hret), rfl⟩

end Round

end Gilmap
