import Gilmap.Jit.Independence
import Gilmap.Jit.TypedRuns
import Gilmap.Jit.VectorGap

/-! # How a call of a kernel ends

A call of scalar code returns, traps, or never ends, and in the last two cases its body traps
or never ends at one of the elements. A call of vector code returns.
-/
namespace Gilmap
open Library
variable {F : Type}

/-! ## One element -/

/-- The environment gives the locals of the kernel values of their types. -/
def Kernel.HoldsLocals (k : Kernel F) (ρ : Env F) : Prop :=
  ∀ name d x, (declareBody k.body []).lookup name = some d → ρ name = some x → x.ty = clType d

/-- What the body can come to at an element: the locals hold values of their types, whatever
an earlier element has left in them. -/
inductive Kernel.Outcome (fl : FloatOps F) (k : Kernel F) (x : Val F) : ElemResult F → Prop
  | value {ρ : Env F} {v : Val F} : k.HoldsLocals ρ →
      (k.sem fl false x).Computes k.body ρ (.value v) → v.ty = clType k.outputDtype →
      Outcome fl k x (.value v)
  | trap {ρ : Env F} {code : TrapCode} : k.HoldsLocals ρ →
      (k.sem fl false x).Computes k.body ρ (.fault (.trap code)) →
      Outcome fl k x (.fault (.trap code))
  | diverge {ρ : Env F} : k.HoldsLocals ρ → (k.sem fl false x).Computes k.body ρ .diverge →
      Outcome fl k x .diverge

section Element
variable {fl : FloatOps F} {k : Kernel F} {g : Compiled F} {cx : LowerCx} {start final : LowerState}
  {bodyCode : List (Item F)} {header entry out : ℕ} {inPtr outPtr len : Addr} {m : Mem F} {i : ℕ}
  {l : Local F} {x : Val F} {ρ : Env F}

theorem Kernel.HoldsLocals.readTy (hρ : k.HoldsLocals ρ) (fl : FloatOps F) {name : String} {d : Dtype}
    (hn : (k.sem fl false x).locals name = some d) :
    ∃ y, (k.sem fl false x).readLocal ρ name = .ok y ∧ y.ty = clType d := by
  cases hread : ρ name with
  | some y => exact ⟨y, by simp [Sem.readLocal, hread], hρ name d y hn hread⟩
  | none =>
    refine ⟨Val.zeroOf fl (clType d), ?_, zeroOf_ty fl _⟩
    simp only [Sem.readLocal, hread, hn]
    rfl

theorem Kernel.HoldsLocals.held (hρ : k.HoldsLocals ρ) (fl : FloatOps F)
    (hx : x.ty = clType k.inputDtype) : (k.sem fl false x).Held ρ where
  param := hx
  read := hρ.readTy fl

/-- A compiled body has no `break` or `continue` outside of its loops. -/
theorem ElementLoop.not_loose (E : ElementLoop fl k g cx start final bodyCode header entry out)
    (h : AtHeader g header inPtr outPtr len i l) (hi : i < len.toNat)
    (hx : (m (slot inPtr i)).ty = clType k.inputDtype) {n : ℕ} {flow : Flow F}
    (ho : (k.sem fl false (m (slot inPtr i))).execBody n k.body (leftovers g.locals l) = some (.ok flow)) :
    (∀ ρ, flow ≠ .brk ρ) ∧ ∀ ρ, flow ≠ .cont ρ := by
  obtain ⟨l₁, rest, -, hctl, hsuffix, hvars, hparam, -⟩ := E.enter h hi hx
  have hleft : leftovers g.locals l = leftovers g.locals l₁ := by
    unfold leftovers
    rw [hvars]
  have hfollows := lowerBody_follows (E.surrounds (m (slot inPtr i))) n k.body E.lowered
    (fun hn => E.locals ▸ hn) E.paramBound hsuffix E.running hctl (leftovers_matches _ hparam)
  rw [← hleft, ho] at hfollows
  obtain ⟨_, _, _, _, hlands⟩ := hfollows
  constructor
  · rintro ρ' rfl
    obtain ⟨-, _, _, he, -⟩ := hlands
    cases he
  · rintro ρ' rfl
    obtain ⟨-, _, _, he, -⟩ := hlands
    cases he

/-- The round of an element ends as its body does. -/
theorem ElementLoop.exists_round (E : ElementLoop fl k g cx start final bodyCode header entry out)
    (hty : (k.sem fl false (m (slot inPtr i))).bodyTyped k.body)
    (hholds : k.HoldsLocals (leftovers g.locals l)) (h : AtHeader g header inPtr outPtr len i l)
    (hi : i < len.toNat) (hx : (m (slot inPtr i)).ty = clType k.inputDtype) :
    ∃ r, k.Outcome fl (m (slot inPtr i)) r ∧ RoundEnds fl g header inPtr outPtr len i l m r := by
  obtain ⟨r, hr⟩ := Sem.computes_total (k.sem fl false (m (slot inPtr i))) k.body (leftovers g.locals l)
  refine ⟨r, ?_, E.round h hi hx hr⟩
  cases hr with
  | runsForever hd => exact .diverge hholds (.runsForever hd)
  | @ends n o _ ho hres =>
    have hsound := Sem.sound_execBody n k.body _ hty (hholds.held fl hx)
    have hcomputes := Sem.Computes.ends ho hres
    rw [ho] at hsound
    cases hsound with
    | trap code =>
      cases hres
      exact .trap hholds hcomputes
    | normal _ =>
      cases hres
      exact .value hholds hcomputes (zeroOf_ty fl _)
    | ret _ hv =>
      cases hres
      exact .value hholds hcomputes hv
    | brk _ => exact absurd rfl ((E.not_loose h hi hx ho).1 _)
    | cont _ => exact absurd rfl ((E.not_loose h hi hx ho).2 _)

end Element

/-! ## Calls of scalar code -/

section Scalar
variable {fl : FloatOps F} {k : Kernel F} {g : Compiled F} {cx : LowerCx} {start final : LowerState}
  {bodyCode : List (Item F)} {header entry out : ℕ} {inPtr outPtr len : Addr} {m : Mem F} {i : ℕ}
  {l : Local F}

theorem compileScalar_holdsLocals (hc : compileScalar fl k = .ok g) {l : Local F}
    (hl : Typed g.varTy g.valTy l) : k.HoldsLocals (leftovers g.locals l) := by
  simp only [compileScalar, Except.bind_eq_ok] at hc
  obtain ⟨⟨body, s⟩, hbody, hdef⟩ := hc
  obtain ⟨-, hvarTy, -, hlocals, -⟩ := defineFunction_eq_ok hdef
  intro name d x hn hx
  simp only [leftovers, hlocals, Option.map_eq_some_iff] at hx
  obtain ⟨⟨v, d'⟩, hlookup, rfl⟩ := hx
  have hd' : s.locals.dtypes.lookup name = some d' := by
    rw [Locals.lookup_dtypes, Locals.dtype, hlookup]
    rfl
  rw [lowerBody_declares k.body rfl hbody] at hd'
  cases hn.symm.trans hd'
  rw [hl.vars, hvarTy]
  exact ((lowerBody_emits k.body hbody).localsOk (scalarStart_ok k)).typed hlookup

/-- From the test of element `i` on. -/
theorem ElementLoop.comesTo (E : ElementLoop fl k g cx start final bodyCode header entry out)
    (hty : ∀ x, (k.sem fl false x).bodyTyped k.body)
    (hholds : ∀ l, Typed g.varTy g.valTy l → k.HoldsLocals (leftovers g.locals l)) (c : ℕ)
    (hi : i + c = len.toNat) (hb : Buffers m inPtr outPtr len (clType k.inputDtype))
    (h : AtHeader g header inPtr outPtr len i l) :
    ∃ r, MapsTo (k.Outcome fl) ((elements m inPtr len).drop i) r ∧ RunsFrom fl g outPtr len i l m r := by
  induction c generalizing i l m with
  | zero =>
    obtain rfl : i = len.toNat := hi
    have hnil : ∀ base, (elements m base len).drop len.toNat = [] :=
      fun base => List.drop_eq_nil_of_le (by simp [elements])
    obtain ⟨l', hs, hret⟩ := E.return h
    refine ⟨.done [], ?_, 2, [], l', m, hs m, hret, fun _ _ => rfl, (hnil outPtr).symm⟩
    rw [hnil]
    exact .nil
  | succ c ih =>
    have hlt : i < len.toNat := by omega
    obtain ⟨r, hr, hround⟩ := E.exists_round (hty _) (hholds l h.typed) h hlt (hb.typed i hlt)
    rw [drop_elements m inPtr len hlt]
    cases r with
    | fault f =>
      obtain ⟨n, l', hrun, hf⟩ := hround
      exact ⟨.fault f, .fault hr, n, _, l', m, hrun, hf⟩
    | diverge =>
      refine ⟨.diverge, .diverge hr, fun n => ?_⟩
      obtain ⟨n', l', hle, hrun⟩ := hround n
      exact ⟨n', _, _, hle, hrun⟩
    | value v =>
      obtain ⟨n, l', hrun, hat⟩ := hround
      have hws : ∀ w ∈ [(slot outPtr i, v)], ∃ j < len.toNat, w.1 = slot outPtr j :=
        fun w hw => ⟨i, hlt, congrArg Prod.fst (List.mem_singleton.mp hw)⟩
      obtain ⟨r, hmap, hfrom⟩ := ih (by omega) (hb.written hws) hat
      refine ⟨r.cons v, .value hr ?_, RunsFrom.cons hb.outFits hlt hrun hfrom⟩
      have hkept := hb.elements_update hlt v
      simp only [writeAll] at hmap
      rwa [hkept] at hmap

/-- **A scalar call comes to what the body comes to at its elements**, up to the first one
without a value. -/
theorem compileScalar_comesTo (hc : compileScalar fl k = .ok g)
    (hty : ∀ x, (k.sem fl false x).bodyTyped k.body)
    (hb : Buffers m inPtr outPtr len (clType k.inputDtype)) :
    ∃ r, MapsTo (k.Outcome fl) (elements m inPtr len) r ∧ Runs fl g inPtr outPtr len m r := by
  obtain ⟨hg, ⟨_, hentry⟩, bodyCode, final, E⟩ := compileScalar_loop hc
  obtain ⟨l, hs, hat⟩ := enter_header fl hg E.verified hentry inPtr outPtr len
  obtain ⟨r, hmap, hfrom⟩ := E.comesTo hty (fun l hl => compileScalar_holdsLocals hc hl) len.toNat
    (Nat.zero_add _) hb hat
  refine ⟨r, hmap, ?_⟩
  cases r with
  | fault f =>
    obtain ⟨n, tr, l', m', hrun, hf⟩ := hfrom
    exact .fault ((hs m).trans hrun) hf
  | diverge => exact .diverge (Diverges.of_takes (hs m) hfrom)
  | done out =>
    obtain ⟨n, tr, l', m', hrun, hret, hkeep, rfl⟩ := hfrom
    exact .done ((hs m).trans hrun) hret fun a ha => hkeep a fun j _ hj => ha j hj

end Scalar

/-! ## Calls of vector code -/

section Vector
variable {fl : FloatOps F} {k : Kernel F} {g : Compiled F} {node : FnNode F} {d : Dtype}
  {inPtr outPtr len : Addr} {m : Mem F} {value : Expr F} {x y : Val F}

theorem LanePair.ty_eq (h : LanePair x y (clVecType d)) : x.ty = clType d ∧ y.ty = clType d := by
  cases d with
  | i64 | f64 =>
    cases h
    exact ⟨rfl, rfl⟩

/-- A single `return` without locals has its value from any environment. -/
theorem Sem.Computes.of_pure {ρ : Env F} (hsr : k.singleReturn = some value)
    (hpure : isPureSimdExpr value = true) (h : (k.sem fl false x).Computes k.body ρ (.value y))
    (ρ' : Env F) :
    (k.sem fl false x).Computes k.body ρ' (.value y) := by
  rw [singleReturn_body hsr] at h ⊢
  cases h with
  | @ends n o _ ho hres =>
    simp only [execBody, execStmt] at ho
    rw [eval_congr hpure ρ ρ'] at ho
    cases heval : (k.sem fl false x).eval ρ' value (k.sem fl false x).outputDtype with
    | error f =>
      rw [heval] at ho
      cases ho
      cases hres
    | ok z =>
      rw [heval] at ho
      cases ho
      refine .ends (n := n) (o := .ok (.ret z ρ')) ?_ hres
      simp only [execBody, execStmt, heval]
      rfl

/-- The vector code of an accepted function gives each pair of elements its lanes. -/
theorem compileSimd_lanes (fl : FloatOps F) (hwalk : walkFunction d node = some k)
    (hs : compileSimd k = .ok g) (hsr : k.singleReturn = some value) (hpure : isPureSimdExpr value = true)
    {c : ClExpr F} (hc : simdLower k.inputDtype 4 value k.outputDtype = .ok c)
    (hx : x.ty = clType k.inputDtype) (hy : y.ty = clType k.inputDtype) (vars vals : ℕ → Val F)
    (hvals : vals 4 = packLanes x y) :
    ∃ v w, EvalLanes fl g.varTy g.valTy vars vals c ((k.sem fl false x).lane value k.outputDtype)
        ((k.sem fl false y).lane value k.outputDtype) v w ∧
      v.ty = clType k.outputDtype ∧ w.ty = clType k.outputDtype := by
  obtain ⟨c', hc', hload, hverify⟩ := compileSimd_verified fl hs hsr
  cases hc.symm.trans hc'
  obtain ⟨v, w, hlanes⟩ : ∃ v w, EvalLanes fl g.varTy g.valTy vars vals c
      ((k.sem fl false x).lane value k.outputDtype) ((k.sem fl false y).lane value k.outputDtype) v w :=
    simdLower_lanes (S := k.sem fl false x) (T := k.sem fl false y)
      ⟨rfl, rfl, hx, hy, hvals, hload⟩ hpure hc hverify
  -- the type of the vector is that of the function's result
  obtain ⟨param, w', hparams, -, hin, -⟩ := walkFunction_accepts hwalk
  obtain ⟨e, -, haccepts⟩ := walkFunction_returned hwalk hparams hsr
  have hty : (k.sem fl false x).ExprTy value k.outputDtype (clType k.outputDtype) := by
    have hvec : k.isVectorizablePhase1 = true := by
      rw [Kernel.isVectorizablePhase1, hsr]
      exact hpure
    have hcompile : compile fl k = .ok g := (if_pos hvec).trans hs
    have htyped := compile_bodyTyped hcompile false x
    rw [singleReturn_body hsr] at htyped
    exact htyped.1
  have hmem : clType k.outputDtype ∈ laneTys k.outputDtype := by
    cases k.outputDtype <;> simp [clType, laneTys]
  have hcode : VecCode g.varTy g.valTy c (clVecType k.outputDtype) ((Walker.init param d).roundsFloat e) :=
    haccepts.vecCode (S := k.sem fl false x) (p := 4) ⟨hin.symm, fun _ _ hl => by cases hl⟩
      hload hpure hty hmem hc
  cases hr : (Walker.init param d).roundsFloat e with
  | true =>
    rw [hr, vecCode_true] at hcode
    exact absurd hverify (by simp [hcode])
  | false =>
    rw [hr, vecCode_false] at hcode
    have hpair := hlanes.pair
    rw [hcode.2] at hpair
    exact ⟨v, w, hlanes, hpair.ty_eq⟩

/-- The values of a two-lane call whose body returns at each element: the vector code never
traps, and the elements of the tail are computed one by one. -/
theorem compileSimd_exists_pass (hwalk : walkFunction d node = some k)
    (hvec : k.isVectorizablePhase1 = true) (hs : compileSimd k = .ok g)
    (hb : Buffers m inPtr outPtr len (clType k.inputDtype)) {P : Val F → Prop}
    (hP : ∀ v, v.ty = clType k.outputDtype → P v)
    (hx : ∀ i < len.toNat, ∃ y,
      (k.sem fl false (m (slot inPtr i))).Computes k.body Env.empty (.value y) ∧ P y) :
    ∃ v, (∀ i < len.toNat, P (v i)) ∧ FullPass fl g v inPtr outPtr len m := by
  obtain ⟨value, hsr, hpure⟩ := singleReturn_of_vectorizable hvec
  obtain ⟨-, value', c, -, -, hsr', hc, -, -⟩ := compileSimd_loop fl hs
  cases hsr.symm.trans hsr'
  let lane : ℕ → Except Fault (Val F) := fun i =>
    (k.sem fl false (m (slot inPtr i))).lane value k.outputDtype
  have hvalue : ∀ i, ∃ v, i < len.toNat → P v ∧ if i < len.toNat - len.toNat % 2 then lane i = .ok v
      else (k.sem fl false (m (slot inPtr i))).Computes k.body Env.empty (.value v) := by
    intro i
    by_cases hi : i < len.toNat
    · by_cases hmain : i < len.toNat - len.toNat % 2
      · obtain ⟨v, w, hlanes, hv, -⟩ := compileSimd_lanes fl hwalk hs hsr hpure hc (hb.typed i hi)
          (hb.typed i hi) (fun _ => .i64 0) (fun _ => packLanes _ _) rfl
        exact ⟨v, fun _ => ⟨hP v hv, by rw [if_pos hmain]; exact hlanes.first⟩⟩
      · obtain ⟨y, hy, hPy⟩ := hx i hi
        exact ⟨y, fun _ => ⟨hPy, by rw [if_neg hmain]; exact hy⟩⟩
    · exact ⟨.i64 0, fun h => absurd h hi⟩
  choose v hv using hvalue
  refine ⟨v, fun i hi => (hv i hi).1,
    compileSimd_fullPass hs (fun value' c' hsr' hc' j hj hje => ?_) ?_ hb⟩
  · cases hsr.symm.trans hsr'
    cases hc.symm.trans hc'
    have hfirst := (hv j (by omega)).2
    have hsecond := (hv (j + 1) (by omega)).2
    rw [if_pos hj] at hfirst
    rw [if_pos (show j + 1 < len.toNat - len.toNat % 2 by omega)] at hsecond
    have hpair : ∀ vars vals, vals 4 = packLanes (m (slot inPtr j)) (m (slot inPtr (j + 1))) →
        c.eval fl vars vals = .ok (packLanes (v j) (v (j + 1))) ∧ (v j).ty = clType k.outputDtype ∧
          (v (j + 1)).ty = clType k.outputDtype := by
      intro vars vals hvals
      obtain ⟨v', w', hlanes, hv', hw'⟩ := compileSimd_lanes fl hwalk hs hsr hpure hc
        (hb.typed j (by omega)) (hb.typed (j + 1) (by omega)) vars vals hvals
      cases hfirst.symm.trans hlanes.first
      cases hsecond.symm.trans hlanes.second
      exact ⟨hlanes.eval, hv', hw'⟩
    obtain ⟨-, h₁, h₂⟩ := hpair (fun _ => .i64 0) (fun _ => packLanes _ _) rfl
    exact ⟨fun vars vals hvals => (hpair vars vals hvals).1, h₁, h₂⟩
  · intro i hge hi ρ
    have htail := (hv i hi).2
    rw [if_neg (not_lt.mpr hge)] at htail
    exact htail.of_pure hsr hpure ρ

/-- The body of a vector kernel has a value at every element. -/
theorem compileSimd_value (hs : compileSimd k = .ok g) (hsr : k.singleReturn = some value)
    (hpure : isPureSimdExpr value = true) (hty : (k.sem fl false x).bodyTyped k.body)
    (hx : x.ty = clType k.inputDtype) :
    ∃ y, (k.sem fl false x).Computes k.body Env.empty (.value y) ∧ y.ty = clType k.outputDtype := by
  obtain ⟨c, hc, -, hverify⟩ := compileSimd_verified fl hs hsr
  have huntrapped := untrapped_eval (S := k.sem fl false x) (ρ := Env.empty) hpure hc hverify
  have hempty : k.HoldsLocals Env.empty := fun _ _ _ _ he => by cases he
  rw [singleReturn_body hsr] at hty
  have htraps := Sem.ExprTy.traps hty.1 (hempty.held fl hx)
  cases heval : (k.sem fl false x).eval Env.empty value (k.sem fl false x).outputDtype with
  | error f =>
    rw [heval] at htraps
    cases htraps with
    | trap code => cases huntrapped _ heval
  | ok y =>
    rw [heval] at htraps
    cases htraps with
    | ok hv =>
      refine ⟨y, .ends (n := 0) (o := .ok (.ret y Env.empty)) ?_ rfl, hv⟩
      rw [singleReturn_body hsr]
      simp only [Sem.execBody, Sem.execStmt, heval]
      rfl

/-- **A vector call returns**, whatever its elements are. -/
theorem compileSimd_full (hwalk : walkFunction d node = some k) (hvec : k.isVectorizablePhase1 = true)
    (hc : compile fl k = .ok g) (hb : Buffers m inPtr outPtr len (clType k.inputDtype)) :
    ∃ v, (∀ i < len.toNat, (v i).ty = clType k.outputDtype) ∧ FullPass fl g v inPtr outPtr len m := by
  obtain ⟨value, hsr, hpure⟩ := singleReturn_of_vectorizable hvec
  have hs : compileSimd k = .ok g := by rwa [compile, if_pos hvec] at hc
  exact compileSimd_exists_pass hwalk hvec hs hb (fun _ hv => hv) fun i hi =>
    compileSimd_value hs hsr hpure (compile_bodyTyped hc false _) (hb.typed i hi)

end Vector

/-! ## Both -/

/-- The calls of the function map `R` over buffers of the elements, and touch their slots only. -/
structure Compiled.Maps (fl : FloatOps F) (g : Compiled F) (ty : ClTy)
    (R : Val F → ElemResult F → Prop) (xs : List (Val F)) : Prop where
  ends : ∀ {m inPtr outPtr len}, Buffers m inPtr outPtr len ty →
    (∀ i < len.toNat, m (slot inPtr i) ∈ xs) →
    ∃ r, MapsTo R (elements m inPtr len) r ∧ Runs fl g inPtr outPtr len m r
  footprint : ∀ {m inPtr outPtr len n tr c}, Buffers m inPtr outPtr len ty →
    (∀ i < len.toNat, m (slot inPtr i) ∈ xs) →
    Takes (clifNext fl g.code) n (g.enter fl inPtr outPtr len, m) tr c →
    Footprint (slotsFrom inPtr 0 len.toNat) (slotsFrom outPtr 0 len.toNat) tr

/-- The element has a value of the type. -/
inductive ValueOf (ty : ClTy) : ElemResult F → Prop
  | value {v : Val F} : v.ty = ty → ValueOf ty (.value v)

section Maps
variable {fl : FloatOps F} {k : Kernel F} {g : Compiled F} {node : FnNode F} {d : Dtype}
  {inPtr outPtr len : Addr} {m : Mem F} {v : ℕ → Val F} {R : Val F → ElemResult F → Prop}
  {xs : List (Val F)} {r : BufferResult F} {ty : ClTy}

theorem MapsTo.forall₂ (h : MapsTo R xs r) {ys : List (Val F)} (hr : r = .done ys) :
    List.Forall₂ (fun x y => R x (.value y)) xs ys := by
  induction h generalizing ys with
  | nil =>
    cases hr
    exact .nil
  | @value x v xs r hx _ ih =>
    cases r with
    | done out =>
      cases hr
      exact .cons hx (ih rfl)
    | fault f => cases hr
    | diverge => cases hr
  | fault _ => cases hr
  | diverge _ => cases hr

/-- An element of a call that returns has its value. -/
theorem MapsTo.exists_value (h : MapsTo R xs r) {ys : List (Val F)} (hr : r = .done ys) {x : Val F}
    (hx : x ∈ xs) : ∃ y, R x (.value y) := by
  obtain ⟨i, hi, rfl⟩ := List.mem_iff_getElem.mp hx
  have hall := h.forall₂ hr
  exact ⟨_, hall.get hi (hall.length_eq ▸ hi)⟩

theorem MapsTo.exists_fault (h : MapsTo R xs r) {f : Fault} (hr : r = .fault f) :
    ∃ x ∈ xs, R x (.fault f) := by
  induction h with
  | nil => cases hr
  | @value x v xs r _ _ ih =>
    cases r with
    | done out => cases hr
    | fault f =>
      cases hr
      obtain ⟨y, hy, hR⟩ := ih rfl
      exact ⟨y, List.mem_cons_of_mem x hy, hR⟩
    | diverge => cases hr
  | fault hx =>
    cases hr
    exact ⟨_, List.mem_cons_self, hx⟩
  | diverge _ => cases hr

theorem MapsTo.exists_diverge (h : MapsTo R xs r) (hr : r = .diverge) : ∃ x ∈ xs, R x .diverge := by
  induction h with
  | nil => cases hr
  | @value x v xs r _ _ ih =>
    cases r with
    | done out => cases hr
    | fault f => cases hr
    | diverge =>
      obtain ⟨y, hy, hR⟩ := ih rfl
      exact ⟨y, List.mem_cons_of_mem x hy, hR⟩
  | fault _ => cases hr
  | diverge hx => exact ⟨_, List.mem_cons_self, hx⟩

theorem mapsTo_done {ys : List (Val F)} (h : List.Forall₂ (fun x y => R x (.value y)) xs ys) :
    MapsTo R xs (.done ys) := by
  induction h with
  | nil => exact .nil
  | cons hx _ ih => exact .value hx ih

/-- A run of the call is a part of the full pass. -/
theorem FullPass.footprint (h : FullPass fl g v inPtr outPtr len m) {n : ℕ}
    {tr : List (Access Addr (Val F))} {c : Local F × Mem F}
    (hrun : Takes (clifNext fl g.code) n (g.enter fl inPtr outPtr len, m) tr c) :
    Footprint (slotsFrom inPtr 0 len.toNat) (slotsFrom outPtr 0 len.toNat) tr := by
  obtain ⟨n', tr', l', m', hrun', hret, hreads, hwrites⟩ := h
  obtain ⟨rest, rfl, -⟩ := hrun'.split hrun (hrun'.le_of_halted (clifNext_returned hret) hrun)
  rw [List.range_eq_range'] at hreads hwrites
  have hwhole := footprint_of_chunk (le_of_eq (Nat.zero_add _)) hreads hwrites
  refine (Footprint.append.mp hwhole).1.mono ?_ ?_
  · rintro a ⟨i, hi, rfl⟩
    exact ⟨i, Nat.zero_le i, hi, rfl⟩
  · rintro a ⟨i, -, hi, rfl⟩
    exact ⟨i, Nat.zero_le i, by omega, rfl⟩

theorem FullPass.runs (hb : Buffers m inPtr outPtr len ty) (h : FullPass fl g v inPtr outPtr len m) :
    Runs fl g inPtr outPtr len m (.done ((List.range len.toNat).map v)) := by
  obtain ⟨n, tr, l', m', hrun, hret, -, hwrites⟩ := h
  have hmem : m' = writeAll m (writesOf tr) := hrun.mem_eq
  have hinj : ∀ i < len.toNat, ∀ j < len.toNat, slot outPtr i = slot outPtr j → i = j :=
    fun i hi j hj he => slot_inj hb.outFits hi hj he
  have hvalues : elements m' outPtr len = (List.range len.toNat).map v := by
    apply List.map_congr_left
    intro i hi
    rw [hmem, hwrites]
    exact writeAll_of_mem (nodup_outCells hinj) (List.mem_map.mpr ⟨i, hi, rfl⟩) m
  rw [← hvalues]
  refine .done hrun hret fun a ha => ?_
  rw [hmem, writeAll_of_notMem]
  intro w hw
  rw [hwrites] at hw
  obtain ⟨j, hj, rfl⟩ := List.mem_map.mp hw
  exact (ha j (List.mem_range.mp hj)).symm

theorem maps_of_fullPass (h : ∀ {m inPtr outPtr len}, Buffers m inPtr outPtr len ty →
    (∀ i < len.toNat, m (slot inPtr i) ∈ xs) → ∃ v,
      (∀ i < len.toNat, R (m (slot inPtr i)) (.value (v i))) ∧ FullPass fl g v inPtr outPtr len m) :
    g.Maps fl ty R xs where
  ends {m inPtr outPtr len} hb hmem := by
    obtain ⟨v, hv, hpass⟩ := h hb hmem
    refine ⟨_, mapsTo_done ?_, hpass.runs hb⟩
    rw [elements, List.forall₂_map_left_iff, List.forall₂_map_right_iff, List.forall₂_same]
    exact fun i hi => hv i (List.mem_range.mp hi)
  footprint hb hmem hrun := by
    obtain ⟨v, -, hpass⟩ := h hb hmem
    exact hpass.footprint hrun

theorem compileScalar_maps_outcome (hc : compileScalar fl k = .ok g)
    (hty : ∀ x, (k.sem fl false x).bodyTyped k.body) (xs : List (Val F)) :
    g.Maps fl (clType k.inputDtype) (k.Outcome fl) xs where
  ends hb _ := compileScalar_comesTo hc hty hb
  footprint hb _ hrun := compileScalar_footprint hc hb hrun

theorem compileSimd_maps_value (hwalk : walkFunction d node = some k)
    (hvec : k.isVectorizablePhase1 = true) (hc : compile fl k = .ok g) (xs : List (Val F)) :
    g.Maps fl (clType k.inputDtype) (fun _ => ValueOf (clType k.outputDtype)) xs := by
  apply maps_of_fullPass
  intro m inPtr outPtr len hb _
  obtain ⟨v, hv, hpass⟩ := compileSimd_full hwalk hvec hc hb
  exact ⟨v, fun i hi => .value (hv i hi), hpass⟩

end Maps

end Gilmap
