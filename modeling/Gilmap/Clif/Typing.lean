import Gilmap.Clif.Code

/-! # Verified code keeps its types

A verified instruction applied to values of the declared types gives a value of the
recorded type, or traps; it never fails for its operands. Along a run every variable and
every named value keeps the type it was declared with.
-/
namespace Gilmap
open Library
variable {F : Type}

/-- The outcome has type `t` or is a genuine trap. -/
def HasTy (t : ClTy) : Except Fault (Val F) → Prop
  | .ok v => v.ty = t
  | .error f => f ≠ .illTyped

theorem HasTy.bind {t t' : ClTy} {x : Except Fault (Val F)} {f : Val F → Except Fault (Val F)}
    (h : HasTy t x) (hf : ∀ v, v.ty = t → HasTy t' (f v)) : HasTy t' (x >>= f) := by
  cases x with
  | error e => exact h
  | ok v => exact hf v h

section Operations
variable (fl : FloatOps F) {x y c : Val F}

theorem hasTy_ineg (h : x.ty ∈ [ClTy.i8, .i64, .i64x2]) : HasTy x.ty x.ineg := by
  cases x <;> simp_all [Val.ty, Val.ineg, HasTy]

theorem hasTy_fneg (h : x.ty ∈ [ClTy.f64, .f64x2]) : HasTy x.ty (x.fneg fl) := by
  cases x <;> simp_all [Val.ty, Val.fneg, HasTy]

theorem hasTy_intBin (op : IntBin) (h : x.ty ∈ [ClTy.i8, .i64, .i64x2]) (hxy : x.ty = y.ty) :
    HasTy x.ty (x.intBin op y) := by
  cases x <;> cases y <;> simp_all [Val.ty, Val.intBin, HasTy]

theorem hasTy_floatBin (op : FloatBin) (h : x.ty ∈ [ClTy.f64, .f64x2]) (hxy : x.ty = y.ty) :
    HasTy x.ty (x.floatBin fl op y) := by
  cases x <;> cases y <;> simp_all [Val.ty, Val.floatBin, HasTy]

theorem hasTy_sdiv (h : x.ty ∈ [ClTy.i8, .i64]) (hxy : x.ty = y.ty) : HasTy x.ty (x.sdiv y) := by
  cases x <;> cases y <;> simp_all [Val.ty, Val.sdiv, sdivBits] <;> split_ifs <;>
    simp [HasTy, Except.map, Val.ty]

theorem hasTy_srem (h : x.ty ∈ [ClTy.i8, .i64]) (hxy : x.ty = y.ty) : HasTy x.ty (x.srem y) := by
  cases x <;> cases y <;> simp_all [Val.ty, Val.srem, sremBits] <;> split_ifs <;>
    simp [HasTy, Except.map, Val.ty]

theorem hasTy_urem (h : x.ty ∈ [ClTy.i8, .i64]) (hxy : x.ty = y.ty) : HasTy x.ty (x.urem y) := by
  cases x <;> cases y <;> simp_all [Val.ty, Val.urem] <;> split_ifs <;> simp [HasTy, Val.ty]

theorem hasTy_icmp (cc : IntCC) (h : x.ty ∈ [ClTy.i8, .i64, .i64x2]) (hxy : x.ty = y.ty) :
    HasTy (if x.ty = .i64x2 then .i64x2 else .i8) (x.icmp cc y) := by
  cases x <;> cases y <;> simp_all [Val.ty, Val.icmp, HasTy]

theorem hasTy_fcmp (cc : FloatCC) (h : x.ty ∈ [ClTy.f64, .f64x2]) (hxy : x.ty = y.ty) :
    HasTy (if x.ty = .f64x2 then .i64x2 else .i8) (x.fcmp fl cc y) := by
  cases x <;> cases y <;> simp_all [Val.ty, Val.fcmp, HasTy]

theorem hasTy_select (hc : c.ty ∈ [ClTy.i8, .i64]) (hxy : x.ty = y.ty) :
    HasTy x.ty (c.select x y) := by
  cases c <;> simp_all [Val.ty, Val.select, Val.truthy, Except.map, HasTy] <;> split_ifs <;>
    simp_all

theorem hasTy_bitselect (hc : c.ty = x.ty) (hxy : x.ty = y.ty) :
    HasTy x.ty (c.bitselect fl x y) := by
  cases c <;> cases x <;> cases y <;> simp_all [Val.ty, Val.bitselect, HasTy]

theorem hasTy_bitcastF64x2 (h : x.ty ∈ [ClTy.i64x2, .f64x2]) : HasTy .f64x2 (x.bitcastF64x2 fl) := by
  cases x <;> simp_all [Val.ty, Val.bitcastF64x2, HasTy]

theorem hasTy_splat (h : x.ty ∈ [ClTy.i64, .f64]) :
    HasTy (if x.ty = .f64 then .f64x2 else .i64x2) x.splat := by
  cases x <;> simp_all [Val.ty, Val.splat, HasTy]

theorem hasTy_callLibm (fn : LibmFn) (h : x.ty = .f64) : HasTy .f64 (x.callLibm fl fn) := by
  cases x <;> simp_all [Val.ty, Val.callLibm, HasTy]

theorem hasTy_callPow (hx : x.ty = .f64) (hy : y.ty = .f64) : HasTy .f64 (x.callPow fl y) := by
  cases x <;> cases y <;> simp_all [Val.ty, Val.callPow, HasTy]

theorem hasTy_fcvtToSint (h : x.ty = .f64) : HasTy .i64 (x.fcvtToSint fl) := by
  cases x with
  | f64 a => cases hi : fl.toInt a <;> simp [Val.fcvtToSint, hi, Except.mapError, Except.map, HasTy, Val.ty]
  | _ => simp [Val.ty] at h

theorem hasTy_fcvtFromSint {t : ClTy}
    (h : (t = .f64 ∧ x.ty ∈ [ClTy.i8, .i64]) ∨ (t = .f64x2 ∧ x.ty = .i64x2)) :
    HasTy t (x.fcvtFromSint fl) := by
  cases x <;> simp_all [Val.ty, Val.fcvtFromSint, HasTy]

end Operations

theorem zeroOf_ty (fl : FloatOps F) (t : ClTy) : (Val.zeroOf fl t).ty = t := by
  cases t <;> rfl

/-- Verified instructions keep their recorded types. -/
theorem ClExpr.eval_hasTy (fl : FloatOps F) {varTys valTys : ℕ → ClTy} {vars vals : ℕ → Val F}
    (hvars : ∀ v, (vars v).ty = varTys v) (hvals : ∀ k, (vals k).ty = valTys k) {e : ClExpr F}
    (h : e.verify varTys valTys) : HasTy (e.ty varTys valTys) (e.eval fl vars vals) := by
  induction e with
  | value k => exact hvals k
  | useVar v => exact hvars v
  | iconst n => rfl
  | f64const x => rfl
  | splat e ih =>
    simp only [verify, Bool.and_eq_true, decide_eq_true_eq] at h
    apply (ih h.1).bind
    intro v hv
    rw [ty, ← hv]
    exact hasTy_splat (hv ▸ h.2)
  | ineg e ih =>
    simp only [verify, Bool.and_eq_true, decide_eq_true_eq] at h
    apply (ih h.1).bind
    intro v hv
    rw [ty, ← hv]
    exact hasTy_ineg (hv ▸ h.2)
  | fneg e ih =>
    simp only [verify, Bool.and_eq_true, decide_eq_true_eq] at h
    apply (ih h.1).bind
    intro v hv
    rw [ty, ← hv]
    exact hasTy_fneg fl (hv ▸ h.2)
  | intBin op l r ihl ihr =>
    simp only [verify, Bool.and_eq_true, decide_eq_true_eq] at h
    obtain ⟨⟨⟨hl, hr⟩, ht⟩, hlr⟩ := h
    refine (ihl hl).bind fun v hv => (ihr hr).bind fun w hw => ?_
    rw [ty, ← hv]
    exact hasTy_intBin op (hv ▸ ht) (by rw [hv, hw, hlr])
  | floatBin op l r ihl ihr =>
    simp only [verify, Bool.and_eq_true, decide_eq_true_eq] at h
    obtain ⟨⟨⟨hl, hr⟩, ht⟩, hlr⟩ := h
    refine (ihl hl).bind fun v hv => (ihr hr).bind fun w hw => ?_
    rw [ty, ← hv]
    exact hasTy_floatBin fl op (hv ▸ ht) (by rw [hv, hw, hlr])
  | sdiv l r ihl ihr =>
    simp only [verify, Bool.and_eq_true, decide_eq_true_eq] at h
    obtain ⟨⟨⟨hl, hr⟩, ht⟩, hlr⟩ := h
    refine (ihl hl).bind fun v hv => (ihr hr).bind fun w hw => ?_
    rw [ty, ← hv]
    exact hasTy_sdiv (hv ▸ ht) (by rw [hv, hw, hlr])
  | srem l r ihl ihr =>
    simp only [verify, Bool.and_eq_true, decide_eq_true_eq] at h
    obtain ⟨⟨⟨hl, hr⟩, ht⟩, hlr⟩ := h
    refine (ihl hl).bind fun v hv => (ihr hr).bind fun w hw => ?_
    rw [ty, ← hv]
    exact hasTy_srem (hv ▸ ht) (by rw [hv, hw, hlr])
  | urem l r ihl ihr =>
    simp only [verify, Bool.and_eq_true, decide_eq_true_eq] at h
    obtain ⟨⟨⟨hl, hr⟩, ht⟩, hlr⟩ := h
    refine (ihl hl).bind fun v hv => (ihr hr).bind fun w hw => ?_
    rw [ty, ← hv]
    exact hasTy_urem (hv ▸ ht) (by rw [hv, hw, hlr])
  | icmp cc l r ihl ihr =>
    simp only [verify, Bool.and_eq_true, decide_eq_true_eq] at h
    obtain ⟨⟨⟨hl, hr⟩, ht⟩, hlr⟩ := h
    refine (ihl hl).bind fun v hv => (ihr hr).bind fun w hw => ?_
    rw [ty, ← hv]
    exact hasTy_icmp cc (hv ▸ ht) (by rw [hv, hw, hlr])
  | fcmp cc l r ihl ihr =>
    simp only [verify, Bool.and_eq_true, decide_eq_true_eq] at h
    obtain ⟨⟨⟨hl, hr⟩, ht⟩, hlr⟩ := h
    refine (ihl hl).bind fun v hv => (ihr hr).bind fun w hw => ?_
    rw [ty, ← hv]
    exact hasTy_fcmp fl cc (hv ▸ ht) (by rw [hv, hw, hlr])
  | select c x y ihc ihx ihy =>
    simp only [verify, Bool.and_eq_true, decide_eq_true_eq] at h
    obtain ⟨⟨⟨⟨hc, hx⟩, hy⟩, ht⟩, hxy⟩ := h
    refine (ihc hc).bind fun u hu => (ihx hx).bind fun v hv => (ihy hy).bind fun w hw => ?_
    rw [ty, ← hv]
    exact hasTy_select (hu ▸ ht) (by rw [hv, hw, hxy])
  | bitselect c x y ihc ihx ihy =>
    simp only [verify, Bool.and_eq_true, decide_eq_true_eq] at h
    obtain ⟨⟨⟨⟨hc, hx⟩, hy⟩, ht⟩, hxy⟩ := h
    refine (ihc hc).bind fun u hu => (ihx hx).bind fun v hv => (ihy hy).bind fun w hw => ?_
    rw [ty, ← hv]
    exact hasTy_bitselect fl (by rw [hu, hv, ht]) (by rw [hv, hw, hxy])
  | bitcastF64x2 e ih =>
    simp only [verify, Bool.and_eq_true, decide_eq_true_eq] at h
    exact (ih h.1).bind fun v hv => hasTy_bitcastF64x2 fl (hv ▸ h.2)
  | callLibm fn e ih =>
    simp only [verify, Bool.and_eq_true, decide_eq_true_eq] at h
    exact (ih h.1).bind fun v hv => hasTy_callLibm fl fn (hv.trans h.2)
  | callPow l r ihl ihr =>
    simp only [verify, Bool.and_eq_true, decide_eq_true_eq] at h
    obtain ⟨⟨⟨hl, hr⟩, hlt⟩, hrt⟩ := h
    exact (ihl hl).bind fun v hv => (ihr hr).bind fun w hw =>
      hasTy_callPow fl (hv.trans hlt) (hw.trans hrt)
  | fcvtToSint t e ih =>
    simp only [verify, Bool.and_eq_true, decide_eq_true_eq] at h
    obtain ⟨⟨he, rfl⟩, ht⟩ := h
    exact (ih he).bind fun v hv => hasTy_fcvtToSint fl (hv.trans ht)
  | fcvtFromSint t e ih =>
    simp only [verify, Bool.and_eq_true, Bool.or_eq_true, decide_eq_true_eq] at h
    exact (ih h.1).bind fun v hv => hasTy_fcvtFromSint fl (hv ▸ h.2)

/-! ## Along a run -/

/-- Variables and named values have their declared types, and what is left to run is
verified. -/
structure Typed (varTys valTys : ℕ → ClTy) (l : Local F) : Prop where
  vars : ∀ v, (l.vars v).ty = varTys v
  vals : ∀ k, (l.vals k).ty = valTys k
  code : ∀ {rest}, l.ctl = .at rest → ∀ item ∈ rest, Item.verify varTys valTys item

section Run
variable {fl : FloatOps F} {varTys valTys : ℕ → ClTy} {code rest : List (Item F)} {l l' : Local F}

theorem codeAfter_suffix (b : ℕ) : ∀ code : List (Item F), codeAfter b code <:+ code
  | [] => List.suffix_rfl
  | .label b' :: rest => by
    simp only [codeAfter]
    split
    · exact List.suffix_cons _ _
    · exact (codeAfter_suffix b rest).trans (List.suffix_cons _ _)
  | .letVal _ _ :: rest | .load _ _ _ :: rest | .store _ _ :: rest | .defVar _ _ :: rest
  | .jump _ :: rest | .brif _ _ _ :: rest | .ret :: rest =>
    (codeAfter_suffix b rest).trans (List.suffix_cons _ rest)

theorem Typed.goto (h : Typed varTys valTys l) (hc : ∀ item ∈ code, Item.verify varTys valTys item)
    (b : ℕ) : Typed varTys valTys (l.goto code b) where
  vars := h.vars
  vals := h.vals
  code := by
    intro rest hr item hi
    cases hr
    exact hc item ((codeAfter_suffix b code).subset hi)

theorem Typed.fault (h : Typed varTys valTys l) (f : Fault) : Typed varTys valTys (l.fault f) where
  vars := h.vars
  vals := h.vals
  code hr := by cases hr

theorem Typed.resume (h : Typed varTys valTys l)
    (hr : ∀ item ∈ rest, Item.verify varTys valTys item) : Typed varTys valTys (l.resume rest) where
  vars := h.vars
  vals := h.vals
  code := by
    intro rest' he
    cases he
    exact hr

theorem Typed.defVar (h : Typed varTys valTys l) {v : ℕ} {x : Val F} (hx : x.ty = varTys v) :
    Typed varTys valTys (l.defVar v x) where
  vars w := by
    by_cases hw : w = v
    · subst hw
      simpa [Local.defVar] using hx
    · simpa [Local.defVar, Function.update_of_ne hw] using h.vars w
  vals := h.vals
  code := h.code

theorem Typed.letVal (h : Typed varTys valTys l) {k : ℕ} {x : Val F} (hx : x.ty = valTys k) :
    Typed varTys valTys (l.letVal k x) where
  vars := h.vars
  vals j := by
    by_cases hj : j = k
    · subst hj
      simpa [Local.letVal] using hx
    · simpa [Local.letVal, Function.update_of_ne hj] using h.vals j
  code := h.code

theorem packVal_ty {t : ClTy} {vs : List (Val F)} {x : Val F} (h : packVal t vs = .ok x) :
    x.ty = t := by
  unfold packVal at h
  split at h
  · split at h <;> cases h
    assumption
  · split at h <;> cases h
    exact Eq.symm ‹_›
  · split at h <;> cases h
    exact Eq.symm ‹_›
  · cases h

theorem Typed.step (hc : ∀ item ∈ code, Item.verify varTys valTys item) {m m' : Mem F}
    {as : List (Access Addr (Val F))} (h : Typed varTys valTys l)
    (hs : soloStep (clifNext fl code) (l, m) = some (as, l', m')) : Typed varTys valTys l' := by
  unfold soloStep at hs
  dsimp only at hs
  cases hctl : l.ctl with
  | returned => simp [clifNext, hctl] at hs
  | faulted f => simp [clifNext, hctl] at hs
  | «at» rest =>
    have hall := h.code hctl
    cases rest with
    | nil => simp [clifNext, hctl] at hs
    | cons item rest =>
      have hitem := hall item List.mem_cons_self
      have hrest : ∀ item ∈ rest, Item.verify varTys valTys item :=
        fun i hi => hall i (List.mem_cons_of_mem _ hi)
      have heval : ∀ {e : ClExpr F} {x : Val F}, e.verify varTys valTys → l.eval fl e = .ok x →
          x.ty = e.ty varTys valTys := by
        intro e x he hx
        have := ClExpr.eval_hasTy fl h.vars h.vals he
        rw [show e.eval fl l.vars l.vals = .ok x from hx] at this
        exact this
      cases item with
      | label b => simp [clifNext, hctl] at hs
      | ret =>
        simp only [clifNext, hctl] at hs
        cases hs
        exact ⟨h.vars, h.vals, fun hr => by cases hr⟩
      | jump b =>
        simp only [clifNext, hctl] at hs
        cases hs
        exact h.goto hc b
      | brif c yes no =>
        simp only [clifNext, hctl] at hs
        cases hs
        split
        · exact h.fault _
        · exact h.goto hc _
      | letVal k e =>
        simp only [Item.verify, Bool.and_eq_true, decide_eq_true_eq] at hitem
        simp only [clifNext, hctl] at hs
        cases hs
        split
        · exact h.fault _
        · rename_i x hx
          exact (h.letVal ((heval hitem.1 hx).trans hitem.2)).resume hrest
      | defVar v e =>
        simp only [Item.verify, Bool.and_eq_true, decide_eq_true_eq] at hitem
        simp only [clifNext, hctl] at hs
        cases hs
        split
        · exact h.fault _
        · rename_i x hx
          exact (h.defVar ((heval hitem.1 hx).trans hitem.2)).resume hrest
      | load k ty addr =>
        simp only [Item.verify, Bool.and_eq_true, decide_eq_true_eq] at hitem
        simp only [clifNext, hctl] at hs
        cases ha : l.evalAddr fl addr with
        | error f =>
          simp only [ha] at hs
          cases hs
          exact h.fault f
        | ok a =>
          simp only [ha] at hs
          cases hs
          split
          · exact h.fault _
          · rename_i x hx
            exact (h.letVal ((packVal_ty hx).trans hitem.2)).resume hrest
      | store e addr =>
        simp only [clifNext, hctl] at hs
        cases he : l.eval fl e with
        | error f =>
          simp only [he] at hs
          cases hs
          exact h.fault f
        | ok x =>
          cases ha : l.evalAddr fl addr with
          | error f =>
            simp only [he, ha] at hs
            cases hs
            exact h.fault f
          | ok a =>
            simp only [he, ha] at hs
            cases hs
            exact h.resume hrest

theorem Typed.takes (hc : ∀ item ∈ code, Item.verify varTys valTys item)
    {c c' : Local F × Mem F} {n : ℕ} {tr : List (Access Addr (Val F))}
    (hrun : Takes (clifNext fl code) n c tr c') (h : Typed varTys valTys c.1) :
    Typed varTys valTys c'.1 := by
  induction hrun with
  | refl => exact h
  | head hs _ ih => exact ih (h.step hc hs)

end Run

end Gilmap
