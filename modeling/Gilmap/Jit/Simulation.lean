import Gilmap.Jit.LowerSpec

/-! # Lowered bodies simulate the structured semantics

The code of a body, wherever it stands in a function whose labels are distinct, makes
the silent steps that the semantics of the body prescribes and stops in the place that
its flow names: behind the code, at the target of the innermost loop frame, at the
block that stores the element, or in the fault. A body whose fuel runs out makes at
least as many steps as there was fuel.
-/
namespace Gilmap
open Library
variable {F : Type}

theorem codeAfter_of_suffix {code rest : List (Item F)} {b : ℕ} (h : .label b :: rest <:+ code)
    (hn : (labelsOf code).Nodup) : codeAfter b code = rest := by
  obtain ⟨pre, rfl⟩ := h
  induction pre with
  | nil => simp [codeAfter]
  | cons item pre ih =>
    cases item with
    | label b' =>
      have hb : b' ∉ labelsOf (pre ++ .label b :: rest) := (List.nodup_cons.mp hn).1
      have hne : b' ≠ b := by
        rintro rfl
        exact hb (by simp [labelsOf, Item.label?])
      simp only [List.cons_append, codeAfter, hne, if_false]
      exact ih (List.nodup_cons.mp hn).2
    | letVal | load | store | defVar | jump | brif | ret => exact ih hn

/-! ## Where the blocks of a compound statement begin -/

section Layout
variable {code post body close : List (Item F)}

theorem forCode_layout {nb startK stopK counter : ℕ} {startV stopV : ClExpr F}
    (h : forCode nb startK stopK counter startV stopV body close ++ post <:+ code)
    (hn : (labelsOf code).Nodup) :
    (∃ r, codeAfter nb code =
      .brif (.icmp .slt (.useVar counter) (.value stopK)) (nb + 1) (nb + 2) :: r) ∧
    (∃ r, codeAfter (nb + 3) code =
      .defVar counter (.intBin .iadd (.useVar counter) (.iconst 1)) :: .jump nb :: r) ∧
    codeAfter (nb + 1) code = body ++ (close ++ .label (nb + 2) :: post) ∧
    codeAfter (nb + 2) code = post ∧
    body ++ (close ++ .label (nb + 2) :: post) <:+ code := by
  simp only [forCode, List.append_assoc, List.cons_append, List.nil_append] at h
  have hbody : .label (nb + 1) :: (body ++ (close ++ .label (nb + 2) :: post)) <:+ code :=
    (List.drop_suffix 9 _).trans h
  have hinner := (List.suffix_cons _ _).trans hbody
  have hexit : .label (nb + 2) :: post <:+ code :=
    (List.suffix_append _ _).trans ((List.suffix_append _ _).trans hinner)
  exact ⟨⟨_, codeAfter_of_suffix ((List.drop_suffix 4 _).trans h) hn⟩,
    ⟨_, codeAfter_of_suffix ((List.drop_suffix 6 _).trans h) hn⟩,
    codeAfter_of_suffix hbody hn, codeAfter_of_suffix hexit hn, hinner⟩

theorem whileCode_layout {nb : ℕ} {condV : ClExpr F}
    (h : whileCode nb condV body close ++ post <:+ code) (hn : (labelsOf code).Nodup) :
    (∃ r, codeAfter nb code = .brif condV (nb + 1) (nb + 2) :: r) ∧
    codeAfter (nb + 1) code = body ++ (close ++ .label (nb + 2) :: post) ∧
    codeAfter (nb + 2) code = post ∧
    body ++ (close ++ .label (nb + 2) :: post) <:+ code := by
  simp only [whileCode, List.append_assoc, List.cons_append, List.nil_append] at h
  have hbody : .label (nb + 1) :: (body ++ (close ++ .label (nb + 2) :: post)) <:+ code :=
    (List.drop_suffix 3 _).trans h
  have hinner := (List.suffix_cons _ _).trans hbody
  have hexit : .label (nb + 2) :: post <:+ code :=
    (List.suffix_append _ _).trans ((List.suffix_append _ _).trans hinner)
  exact ⟨⟨_, codeAfter_of_suffix ((List.drop_suffix 1 _).trans h) hn⟩,
    codeAfter_of_suffix hbody hn, codeAfter_of_suffix hexit hn, hinner⟩

theorem ifCode_layout {nb : ℕ} {cond : ClExpr F} {elseBody elseClose : List (Item F)}
    (h : ifCode nb cond body close elseBody elseClose ++ post <:+ code)
    (hn : (labelsOf code).Nodup) :
    codeAfter nb code = body ++ (close ++ .label (nb + 1) :: codeAfter (nb + 1) code) ∧
    codeAfter (nb + 1) code = elseBody ++ (elseClose ++ .label (nb + 2) :: post) ∧
    codeAfter (nb + 2) code = post ∧
    body ++ (close ++ .label (nb + 1) :: codeAfter (nb + 1) code) <:+ code ∧
    elseBody ++ (elseClose ++ .label (nb + 2) :: post) <:+ code := by
  simp only [ifCode, List.append_assoc, List.cons_append, List.nil_append] at h
  have hthen := (List.suffix_cons _ _).trans h
  have hinner := (List.suffix_cons _ _).trans hthen
  have helse := (List.suffix_append _ _).trans ((List.suffix_append _ _).trans hinner)
  have helseInner := (List.suffix_cons _ _).trans helse
  have hexit := (List.suffix_append _ _).trans ((List.suffix_append _ _).trans helseInner)
  have helseAt := codeAfter_of_suffix helse hn
  rw [helseAt]
  exact ⟨codeAfter_of_suffix hthen hn, rfl, codeAfter_of_suffix hexit hn, hinner, helseInner⟩

end Layout

/-! ## Silent steps -/

section Silent
variable {fl : FloatOps F} {code : List (Item F)} {l l' l'' : Local F} {rest : List (Item F)}
  {n k : ℕ}

/-- `n` operations that touch no memory. -/
def Silent (fl : FloatOps F) (code : List (Item F)) (n : ℕ) (l l' : Local F) : Prop :=
  ∀ m, Takes (clifNext fl code) n (l, m) [] (l', m)

theorem Silent.refl (l : Local F) : Silent fl code 0 l l := fun m => .refl (l, m)

theorem Silent.trans (h : Silent fl code n l l') (h' : Silent fl code k l' l'') :
    Silent fl code (n + k) l l'' := fun m => (h m).silent_trans (h' m)

theorem Silent.of_tau (h : clifNext fl code l = some (.tau l')) : Silent fl code 1 l l' := by
  intro m
  apply Takes.single
  simp [soloStep, h]

theorem silent_letVal (code : List (Item F)) {j : ℕ} {e : ClExpr F} {x : Val F} (hl : l.ctl = .at (.letVal j e :: rest))
    (he : l.eval fl e = .ok x) : Silent fl code 1 l ((l.letVal j x).resume rest) :=
  .of_tau (by simp [clifNext, hl, he])

theorem silent_letVal_fault (code : List (Item F)) {j : ℕ} {e : ClExpr F} {f : Fault}
    (hl : l.ctl = .at (.letVal j e :: rest)) (he : l.eval fl e = .error f) :
    Silent fl code 1 l (l.fault f) :=
  .of_tau (by simp [clifNext, hl, he])

theorem silent_defVar (code : List (Item F)) {v : ℕ} {e : ClExpr F} {x : Val F} (hl : l.ctl = .at (.defVar v e :: rest))
    (he : l.eval fl e = .ok x) : Silent fl code 1 l ((l.defVar v x).resume rest) :=
  .of_tau (by simp [clifNext, hl, he])

theorem silent_defVar_fault (code : List (Item F)) {v : ℕ} {e : ClExpr F} {f : Fault}
    (hl : l.ctl = .at (.defVar v e :: rest)) (he : l.eval fl e = .error f) :
    Silent fl code 1 l (l.fault f) :=
  .of_tau (by simp [clifNext, hl, he])

theorem silent_jump (code : List (Item F)) {b : ℕ} (hl : l.ctl = .at (.jump b :: rest)) :
    Silent fl code 1 l (l.goto code b) :=
  .of_tau (by simp [clifNext, hl])

theorem silent_brif (code : List (Item F)) {c : ClExpr F} {yes no : ℕ} {t : Bool} (hl : l.ctl = .at (.brif c yes no :: rest))
    (hc : l.eval fl c >>= Val.truthy = .ok t) :
    Silent fl code 1 l (l.goto code (if t then yes else no)) :=
  .of_tau (by simp [clifNext, hl, hc])

theorem silent_brif_fault (code : List (Item F)) {c : ClExpr F} {yes no : ℕ} {f : Fault}
    (hl : l.ctl = .at (.brif c yes no :: rest)) (hc : l.eval fl c >>= Val.truthy = .error f) :
    Silent fl code 1 l (l.fault f) :=
  .of_tau (by simp [clifNext, hl, hc])

end Silent

/-! ## The simulation relation -/

/-- The values named before `k` and the element index are untouched. -/
structure Frame (k : ℕ) (l l' : Local F) : Prop where
  vals : ∀ j < k, l'.vals j = l.vals j
  index : l'.vars iVar = l.vars iVar

theorem Frame.refl (k : ℕ) (l : Local F) : Frame k l l := ⟨fun _ _ => rfl, rfl⟩

theorem Frame.trans {k : ℕ} {l l' l'' : Local F} (h : Frame k l l') (h' : Frame k l' l'') :
    Frame k l l'' :=
  ⟨fun j hj => (h'.vals j hj).trans (h.vals j hj), h'.index.trans h.index⟩

theorem Frame.mono {j k : ℕ} {l l' : Local F} (h : Frame k l l') (hjk : j ≤ k) : Frame j l l' :=
  ⟨fun i hi => h.vals i (lt_of_lt_of_le hi hjk), h.index⟩

theorem Frame.goto (code : List (Item F)) (k : ℕ) (l : Local F) (b : ℕ) :
    Frame k l (l.goto code b) := ⟨fun _ _ => rfl, rfl⟩

theorem Frame.fault (k : ℕ) (l : Local F) (f : Fault) : Frame k l (l.fault f) :=
  ⟨fun _ _ => rfl, rfl⟩

/-- The function `code` around a lowered body, the final locals `Γ`, and the semantics
that reads locals as the variables do. -/
structure Lowered (code : List (Item F)) (cx : LowerCx) (S : Sem F) (Γ : Locals) : Prop where
  nodup : (labelsOf code).Nodup
  inputDtype : S.inputDtype = cx.inputDtype
  outputDtype : S.outputDtype = cx.outputDtype
  locals : S.locals = Γ.dtype
  permissive : S.strict = false
  result : cx.resultVar = resultVar
  bound : ∀ {name v dtype}, Γ.lookup name = some (v, dtype) → 2 ≤ v
  inj : ∀ {name name' v dtype dtype'}, Γ.lookup name = some (v, dtype) →
    Γ.lookup name' = some (v, dtype') → name = name'

/-- The variables of `l` show the environment `ρ`. -/
structure Matches (cx : LowerCx) (S : Sem F) (Γ : Locals) (ρ : Env F) (l : Local F) : Prop where
  vars : ∀ {name v dtype}, Γ.lookup name = some (v, dtype) →
    l.vars v = (ρ name).getD (Val.zeroOf S.fl (clType dtype))
  param : l.vals cx.param = S.param

section Relation
variable {code : List (Item F)} {cx : LowerCx} {S : Sem F} {Γ : Locals} {ρ : Env F} {l l' : Local F}

theorem Matches.readLocal (hm : Matches cx S Γ ρ l) (hL : Lowered code cx S Γ) {name : String}
    {v : ℕ} {dtype : Dtype} (h : Γ.lookup name = some (v, dtype)) :
    S.locals name = some dtype ∧ S.readLocal ρ name = .ok (l.vars v) := by
  have hd : S.locals name = some dtype := by simp [hL.locals, Locals.dtype, h]
  refine ⟨hd, ?_⟩
  rw [hm.vars h]
  cases hρ : ρ name with
  | none => simp [Sem.readLocal, hρ, hL.permissive, hd]
  | some x => simp [Sem.readLocal, hρ]

/-- A lowered expression evaluates as the semantics says. -/
theorem Matches.eval (hm : Matches cx S Γ ρ l) (hL : Lowered code cx S Γ) {Δ : Locals}
    (hΔ : ∀ {name p}, Δ.lookup name = some p → Γ.lookup name = some p) {e : Expr F} {d : Dtype}
    {c : ClExpr F} (h : lowerExpr cx Δ e d = .ok c) : l.eval S.fl c = S.eval ρ e d :=
  eval_lowerExpr hL.inputDtype hm.param (fun hn => hm.readLocal hL (hΔ hn)) h

theorem Matches.of_vars (hm : Matches cx S Γ ρ l) (hvars : l'.vars = l.vars)
    (hparam : l'.vals cx.param = l.vals cx.param) : Matches cx S Γ ρ l' where
  vars h := by rw [hvars]; exact hm.vars h
  param := by rw [hparam]; exact hm.param

theorem Matches.set (hm : Matches cx S Γ ρ l) (hL : Lowered code cx S Γ) {name : String} {v : ℕ}
    {dtype : Dtype} (h : Γ.lookup name = some (v, dtype)) (x : Val F) (rest : List (Item F)) :
    Matches cx S Γ (ρ.set name x) ((l.defVar v x).resume rest) where
  vars := by
    intro n w d hn
    by_cases hnn : n = name
    · subst hnn
      rw [h] at hn
      cases hn
      simp [Local.defVar, Local.resume]
    · have hwv : w ≠ v := by
        rintro rfl
        exact hnn (hL.inj hn h)
      simp only [Local.defVar, Local.resume, Function.update_of_ne hwv, Env.set_of_ne ρ hnn]
      exact hm.vars hn
  param := hm.param

theorem Matches.setResult (hm : Matches cx S Γ ρ l) (hL : Lowered code cx S Γ) (x : Val F)
    (rest : List (Item F)) : Matches cx S Γ ρ ((l.defVar cx.resultVar x).resume rest) where
  vars := by
    intro n w d hn
    have hw : w ≠ cx.resultVar := by
      have := hL.bound hn
      rw [hL.result]
      unfold resultVar
      omega
    simp only [Local.defVar, Local.resume, Function.update_of_ne hw]
    exact hm.vars hn
  param := hm.param

theorem frame_defVar (hL : Lowered code cx S Γ) {name : String} {v : ℕ} {dtype : Dtype}
    (h : Γ.lookup name = some (v, dtype)) (k : ℕ) (x : Val F) (rest : List (Item F)) :
    Frame k l ((l.defVar v x).resume rest) where
  vals _ _ := rfl
  index := by
    have hv : iVar ≠ v := by
      have := hL.bound h
      unfold iVar
      omega
    simp [Local.defVar, Local.resume, Function.update_of_ne hv]

theorem Matches.letVal {k : ℕ} (hm : Matches cx S Γ ρ l) (hp : cx.param < k) (x : Val F)
    (rest : List (Item F)) : Matches cx S Γ ρ ((l.letVal k x).resume rest) :=
  hm.of_vars rfl (by simp [Local.letVal, Local.resume, Function.update_of_ne (Nat.ne_of_lt hp)])

theorem frame_letVal {j k : ℕ} (hjk : k ≤ j) (x : Val F) (rest : List (Item F)) :
    Frame k l ((l.letVal j x).resume rest) where
  vals i hi := by simp [Local.letVal, Local.resume, Function.update_of_ne (show i ≠ j by omega)]
  index := rfl

/-- Where control is when a flow leaves a body, and what the variables show. -/
def Lands (code : List (Item F)) (cx : LowerCx) (S : Sem F) (Γ : Locals) (loops : List LoopFrame)
    (next : List (Item F)) : Except Fault (Flow F) → Local F → Prop
  | .error f, l => l.ctl = .faulted f
  | .ok (.normal ρ), l => l.ctl = .at next ∧ Matches cx S Γ ρ l
  | .ok (.brk ρ), l => Matches cx S Γ ρ l ∧
    ∃ frame outer, loops = frame :: outer ∧ l.ctl = .at (codeAfter frame.exitBlock code)
  | .ok (.cont ρ), l => Matches cx S Γ ρ l ∧
    ∃ frame outer, loops = frame :: outer ∧ l.ctl = .at (codeAfter frame.headerBlock code)
  | .ok (.ret v ρ), l => Matches cx S Γ ρ l ∧
    l.vars resultVar = v ∧ l.ctl = .at (codeAfter cx.elemExit code)

/-- From `l` the machine follows the result `r`; out of fuel means at least `fuel` steps. -/
def Follows (fl : FloatOps F) (code : List (Item F)) (k : ℕ) (l : Local F) (fuel : ℕ)
    (r : Res F) (lands : Except Fault (Flow F) → Local F → Prop) : Prop :=
  match r with
  | none => ∃ n l', fuel ≤ n ∧ Silent fl code n l l'
  | some o => ∃ n l', Silent fl code n l l' ∧ Frame k l l' ∧ lands o l'

variable {fl : FloatOps F} {k n fuel fuel' : ℕ} {r : Res F}
  {lands lands' : Except Fault (Flow F) → Local F → Prop}

theorem Follows.afterSilent (fuel : ℕ) (h : Follows fl code k l' fuel r lands) (hs : Silent fl code n l l')
    (hf : Frame k l l') (hfuel : fuel' ≤ n + fuel) : Follows fl code k l fuel' r lands := by
  cases r with
  | none =>
    obtain ⟨j, l'', hj, hs'⟩ := h
    exact ⟨n + j, l'', by omega, hs.trans hs'⟩
  | some o =>
    obtain ⟨j, l'', hs', hf', hl⟩ := h
    exact ⟨n + j, l'', hs.trans hs', hf.trans hf', hl⟩

theorem Follows.mono {j : ℕ} (h : Follows fl code k l fuel r lands) (hjk : j ≤ k)
    (hfuel : fuel' ≤ fuel) (hl : ∀ o l', lands o l' → lands' o l') :
    Follows fl code j l fuel' r lands' := by
  cases r with
  | none =>
    obtain ⟨n, l', hn, hs⟩ := h
    exact ⟨n, l', by omega, hs⟩
  | some o =>
    obtain ⟨n, l', hs, hf, ho⟩ := h
    exact ⟨n, l', hs, hf.mono hjk, hl o l' ho⟩

theorem Follows.of_silent {o : Except Fault (Flow F)} (hs : Silent fl code n l l')
    (hf : Frame k l l') (ho : lands o l') : Follows fl code k l fuel (some o) lands :=
  ⟨n, l', hs, hf, ho⟩

/-- Sequencing: the second part runs from wherever the first one ends normally. -/
theorem Follows.andThen {loops : List LoopFrame} {next next' : List (Item F)}
    {again : Env F → Res F}
    (h : Follows fl code k l fuel r (Lands code cx S Γ loops next))
    (ha : ∀ ρ' l', r = some (.ok (.normal ρ')) → Frame k l l' → l'.ctl = .at next →
      Matches cx S Γ ρ' l' →
      Follows fl code k l' fuel (again ρ') (Lands code cx S Γ loops next')) :
    Follows fl code k l fuel (andThen r again) (Lands code cx S Γ loops next') := by
  cases r with
  | none => exact h
  | some o =>
    obtain ⟨n, l', hs, hf, ho⟩ := h
    cases o with
    | error f => exact .of_silent hs hf ho
    | ok flow =>
      cases flow with
      | normal ρ' => exact (ha ρ' l' rfl hf ho.1 ho.2).afterSilent _ hs hf (by omega)
      | brk ρ' => exact .of_silent hs hf ho
      | cont ρ' => exact .of_silent hs hf ho
      | ret v ρ' => exact .of_silent hs hf ho

/-- One round of a loop whose body ends, normally or by `continue`, at the frame's header. -/
theorem Follows.loopNext {loops : List LoopFrame} (frame : LoopFrame) {next : List (Item F)}
    {again : Env F → Res F} (hexit : codeAfter frame.exitBlock code = next)
    (h : Follows fl code k l fuel r
      (Lands code cx S Γ (frame :: loops) (codeAfter frame.headerBlock code)))
    (hfuel : fuel' ≤ fuel)
    (ha : ∀ ρ' l', Frame k l l' → l'.ctl = .at (codeAfter frame.headerBlock code) →
      Matches cx S Γ ρ' l' → Follows fl code k l' fuel' (again ρ') (Lands code cx S Γ loops next)) :
    Follows fl code k l fuel' (loopNext r again) (Lands code cx S Γ loops next) := by
  cases r with
  | none =>
    obtain ⟨n, l', hn, hs⟩ := h
    exact ⟨n, l', by omega, hs⟩
  | some o =>
    obtain ⟨n, l', hs, hf, ho⟩ := h
    cases o with
    | error f => exact .of_silent hs hf ho
    | ok flow =>
      cases flow with
      | normal ρ' => exact (ha ρ' l' hf ho.1 ho.2).afterSilent _ hs hf (by omega)
      | brk ρ' =>
        obtain ⟨hm, _, _, he, hc⟩ := ho
        cases he
        exact .of_silent hs hf ⟨by rw [hc, hexit], hm⟩
      | cont ρ' =>
        obtain ⟨hm, _, _, he, hc⟩ := ho
        cases he
        exact (ha ρ' l' hf hc hm).afterSilent _ hs hf (by omega)
      | ret v ρ' => exact .of_silent hs hf ho

/-- The jump that closes a block brings a normal end to its target. -/
theorem Follows.close {loops : List LoopFrame} {s : LowerState} {target : ℕ} {rest : List (Item F)}
    (hn : s.terminated = true → ∀ ρ', r ≠ some (.ok (.normal ρ')))
    (h : Follows fl code k l fuel r (Lands code cx S Γ loops (closeBlock s target ++ rest))) :
    Follows fl code k l fuel r (Lands code cx S Γ loops (codeAfter target code)) := by
  cases r with
  | none => exact h
  | some o =>
    obtain ⟨n, l', hs, hf, ho⟩ := h
    cases o with
    | error f => exact .of_silent hs hf ho
    | ok flow =>
      cases flow with
      | brk ρ' => exact .of_silent hs hf ho
      | cont ρ' => exact .of_silent hs hf ho
      | ret v ρ' => exact .of_silent hs hf ho
      | normal ρ' =>
        cases ht : s.terminated with
        | true => exact absurd rfl (hn ht ρ')
        | false =>
          obtain ⟨hc, hm⟩ := ho
          simp only [closeBlock, ht, Bool.false_eq_true, if_false, List.cons_append,
            List.nil_append] at hc
          exact .of_silent (hs.trans (silent_jump code hc)) (hf.trans (.goto code k l' target)) ⟨rfl, hm.of_vars rfl rfl⟩

/-! ## Loops -/

/-- Both bounds are evaluated before the counter is set. -/
theorem follows_forEntry {Δ : Locals} {start stop : Expr F} {startV stopV : ClExpr F} {var : String} {nb counter : ℕ} {dtype : Dtype}
    {rest post : List (Item F)} {loop : Val F → Env F → Res F} {loops : List LoopFrame}
    (hL : Lowered code cx S Γ)
    (hΔ : ∀ {name p}, Δ.lookup name = some p → Γ.lookup name = some p)
    (hstart : lowerExpr cx Δ start .i64 = .ok startV)
    (hstop : lowerExpr cx Δ stop .i64 = .ok stopV)
    (hvar : Γ.lookup var = some (counter, dtype)) (hp : cx.param < k)
    (hl : l.ctl = .at (.letVal k startV :: .letVal (k + 1) stopV :: .defVar counter (.value k) ::
      .jump nb :: rest))
    (hm : Matches cx S Γ ρ l)
    (hloop : ∀ x y l', l'.ctl = .at (codeAfter nb code) → Matches cx S Γ (ρ.set var x) l' →
      l'.vals (k + 1) = y → Follows S.fl code k l' fuel (loop y (ρ.set var x))
        (Lands code cx S Γ loops post)) :
    Follows S.fl code k l fuel
      (match S.eval ρ start .i64 with
      | .error f => some (.error f)
      | .ok x =>
        match S.eval ρ stop .i64 with
        | .error f => some (.error f)
        | .ok y => loop y (ρ.set var x)) (Lands code cx S Γ loops post) := by
  have hstartEval := hm.eval hL hΔ hstart
  cases hx : S.eval ρ start .i64 with
  | error f => exact .of_silent (silent_letVal_fault code hl (hstartEval.trans hx)) (.fault _ l f) rfl
  | ok x =>
    have h₁ := silent_letVal code hl (hstartEval.trans hx)
    have hm₁ := hm.letVal hp x (.letVal (k + 1) stopV :: .defVar counter (.value k) ::
      .jump nb :: rest)
    refine Follows.afterSilent fuel ?_ h₁ (frame_letVal le_rfl x _) (by omega)
    have hstopEval := hm₁.eval hL hΔ hstop
    cases hy : S.eval ρ stop .i64 with
    | error f =>
      exact .of_silent (silent_letVal_fault code rfl (hstopEval.trans hy)) (.fault _ _ f) rfl
    | ok y =>
      have h₂ := silent_letVal code rfl (hstopEval.trans hy)
      have hm₂ := hm₁.letVal (show cx.param < k + 1 by omega) y
        (.defVar counter (.value k) :: .jump nb :: rest)
      refine Follows.afterSilent fuel ?_ h₂ (frame_letVal (by omega) y _) (by omega)
      generalize hl₂ : (Local.resume _ _ : Local F) = l₂ at hm₂ ⊢
      have hx₂ : l₂.vals k = x := by simp [← hl₂, Local.resume, Local.letVal]
      have hy₂ : l₂.vals (k + 1) = y := by simp [← hl₂, Local.resume, Local.letVal]
      have h₃ : Silent S.fl code 1 l₂ _ := silent_defVar code (e := .value k)
        (show l₂.ctl = _ by rw [← hl₂]; rfl) (congrArg Except.ok hx₂)
      have h₄ := h₃.trans (silent_jump code rfl)
      refine Follows.afterSilent fuel ?_ h₄ ((frame_defVar hL hvar k x _).trans (.goto code _ _ _))
        (Nat.le_add_left _ _)
      exact hloop x y _ rfl ((hm₂.set hL hvar x []).of_vars rfl rfl) hy₂

theorem follows_forLoop {loops : List LoopFrame} {body : Env F → Res F} {var : String}
    {nb counter stopK : ℕ} {dtype : Dtype} {stop : Val F} {post r₁ r₂ : List (Item F)}
    (hL : Lowered code cx S Γ) (hvar : Γ.lookup var = some (counter, dtype)) (hk : stopK < k)
    (hhead : codeAfter nb code =
      .brif (.icmp .slt (.useVar counter) (.value stopK)) (nb + 1) (nb + 2) :: r₁)
    (hinc : codeAfter (nb + 3) code =
      .defVar counter (.intBin .iadd (.useVar counter) (.iconst 1)) :: .jump nb :: r₂)
    (hexit : codeAfter (nb + 2) code = post)
    (hbody : ∀ {ρ l}, l.ctl = .at (codeAfter (nb + 1) code) → Matches cx S Γ ρ l →
      Follows S.fl code k l fuel (body ρ)
        (Lands code cx S Γ (⟨nb + 3, nb + 2⟩ :: loops) (codeAfter (nb + 3) code)))
    (hn : n ≤ fuel) (hl : l.ctl = .at (codeAfter nb code)) (hm : Matches cx S Γ ρ l)
    (hstop : l.vals stopK = stop) :
    Follows S.fl code k l n (S.forLoop var stop body n ρ) (Lands code cx S Γ loops post) := by
  induction n generalizing l ρ with
  | zero => exact ⟨0, l, le_rfl, .refl l⟩
  | succ n ih =>
    have hcond : l.eval S.fl (.icmp .slt (.useVar counter) (.value stopK)) >>= Val.truthy =
        S.below ρ var stop := by
      simp only [Sem.below, (hm.readLocal hL hvar).2, ← hstop]
      rfl
    rw [hhead] at hl
    cases hb : S.below ρ var stop with
    | error f =>
      simp only [Sem.forLoop, hb]
      exact .of_silent (silent_brif_fault code hl (hcond.trans hb)) (.fault k l f) rfl
    | ok b =>
      cases b with
      | false =>
        simp only [Sem.forLoop, hb]
        exact .of_silent (silent_brif code hl (hcond.trans hb)) (.goto code k l _)
          ⟨congrArg Control.at hexit, hm.of_vars rfl rfl⟩
      | true =>
        simp only [Sem.forLoop, hb]
        have hin := silent_brif code hl (hcond.trans hb)
        refine Follows.afterSilent n ?_ hin (.goto code k l _) (by omega)
        refine Follows.loopNext ⟨nb + 3, nb + 2⟩ hexit
          (hbody rfl (hm.of_vars rfl rfl)) (by omega) ?_
        intro ρ' l' hf hl' hm'
        have hbump : l'.eval S.fl (.intBin .iadd (.useVar counter) (.iconst 1)) =
            S.bump ρ' var := by
          simp only [Sem.bump, (hm'.readLocal hL hvar).2]
          rfl
        rw [hinc] at hl'
        cases hv : S.bump ρ' var with
        | error f =>
          exact .of_silent (silent_defVar_fault code hl' (hbump.trans hv)) (.fault k l' f) rfl
        | ok v =>
          have hset := silent_defVar code hl' (hbump.trans hv)
          have hback := hset.trans (silent_jump code rfl)
          refine Follows.afterSilent n (ih (by omega) rfl ?_ ?_) hback (frame_defVar hL hvar k v _) (by omega)
          · exact hm'.set hL hvar v _
          · exact (hf.vals stopK hk).trans hstop

theorem follows_whileLoop {loops : List LoopFrame} {body : Env F → Res F} {cond : Expr F}
    {condV : ClExpr F} {Δ : Locals} {nb : ℕ} {post r₁ : List (Item F)}
    (hL : Lowered code cx S Γ)
    (hΔ : ∀ {name p}, Δ.lookup name = some p → Γ.lookup name = some p)
    (hlow : lowerExpr cx Δ cond .i64 = .ok condV)
    (hhead : codeAfter nb code = .brif condV (nb + 1) (nb + 2) :: r₁)
    (hexit : codeAfter (nb + 2) code = post)
    (hbody : ∀ {ρ l}, l.ctl = .at (codeAfter (nb + 1) code) → Matches cx S Γ ρ l →
      Follows S.fl code k l fuel (body ρ)
        (Lands code cx S Γ (⟨nb, nb + 2⟩ :: loops) (codeAfter nb code)))
    (hn : n ≤ fuel) (hl : l.ctl = .at (codeAfter nb code)) (hm : Matches cx S Γ ρ l) :
    Follows S.fl code k l n (S.whileLoop cond body n ρ) (Lands code cx S Γ loops post) := by
  induction n generalizing l ρ with
  | zero => exact ⟨0, l, le_rfl, .refl l⟩
  | succ n ih =>
    have hcond : l.eval S.fl condV >>= Val.truthy = S.test ρ cond := by
      rw [hm.eval hL hΔ hlow, Sem.test]
    rw [hhead] at hl
    cases hb : S.test ρ cond with
    | error f =>
      simp only [Sem.whileLoop, hb]
      exact .of_silent (silent_brif_fault code hl (hcond.trans hb)) (.fault k l f) rfl
    | ok b =>
      have hin := silent_brif code hl (hcond.trans hb)
      cases b with
      | false =>
        simp only [Sem.whileLoop, hb]
        exact .of_silent hin (.goto code k l _) ⟨congrArg Control.at hexit, hm.of_vars rfl rfl⟩
      | true =>
        simp only [Sem.whileLoop, hb]
        refine Follows.afterSilent n ?_ hin (.goto code k l _) (by omega)
        refine Follows.loopNext ⟨nb, nb + 2⟩ hexit
          (hbody rfl (hm.of_vars rfl rfl)) (by omega) ?_
        intro ρ' l' _ hl' hm'
        exact ih (by omega) hl' hm'

end Relation

/-! ## A terminated block is never left normally -/

theorem lowerStmt_not_normal {cx : LowerCx} {loops : List LoopFrame} {s s' : LowerState}
    {c : List (Item F)} {stmt : Stmt F} (hs : s.terminated = false)
    (h : lowerStmt cx loops stmt s = .ok (c, s')) (ht : s'.terminated = true) (S : Sem F)
    (fuel : ℕ) (ρ ρ' : Env F) : S.execStmt fuel stmt ρ ≠ some (.ok (.normal ρ')) := by
  rw [lowerStmt_terminated hs h] at ht
  cases stmt with
  | assign | forRange | whileDo | ifElse => cases ht
  | ret value =>
    simp only [Sem.execStmt]
    cases S.eval ρ value S.outputDtype <;> simp
  | brk | cont => simp [Sem.execStmt]

theorem lowerBody_not_normal {cx : LowerCx} {loops : List LoopFrame} {s s' : LowerState}
    {c : List (Item F)} {body : List (Stmt F)} (hs : s.terminated = false)
    (h : lowerBody cx loops body s = .ok (c, s')) (ht : s'.terminated = true) (S : Sem F)
    (fuel : ℕ) (ρ ρ' : Env F) : S.execBody fuel body ρ ≠ some (.ok (.normal ρ')) := by
  induction body generalizing s c ρ with
  | nil =>
    cases h
    simp [hs] at ht
  | cons stmt rest ih =>
    obtain ⟨code, s₁, code', hstmt, hrest, -⟩ := lowerBody_cons hs h
    simp only [Sem.execBody]
    cases hr : S.execStmt fuel stmt ρ with
    | none => simp [andThen]
    | some o =>
      cases o with
      | error f => simp [andThen]
      | ok flow =>
        cases flow with
        | brk | cont | ret => simp [andThen]
        | normal ρ₁ =>
          simp only [andThen]
          cases hs₁ : s₁.terminated with
          | true => exact absurd hr (lowerStmt_not_normal hs hstmt hs₁ S fuel ρ ρ₁)
          | false => exact ih hs₁ hrest ρ₁

/-! ## Statements and bodies -/

mutual

theorem lowerStmt_follows {code : List (Item F)} {cx : LowerCx} {S : Sem F} {Γ : Locals}
    (hL : Lowered code cx S Γ) (fuel : ℕ) : ∀ (stmt : Stmt F) {loops : List LoopFrame}
    {s s' : LowerState} {c post : List (Item F)} {ρ : Env F} {l : Local F},
    lowerStmt cx loops stmt s = .ok (c, s') →
    (∀ {name p}, s'.locals.lookup name = some p → Γ.lookup name = some p) →
    cx.param < s.valTys.length → c ++ post <:+ code → s.terminated = false →
    l.ctl = .at (c ++ post) → Matches cx S Γ ρ l →
    Follows S.fl code s.valTys.length l fuel (S.execStmt fuel stmt ρ)
      (Lands code cx S Γ loops post)
  | .assign name dtype value, loops, s, s', c, post, ρ, l, h, hΓ, hp, hcode, hs, hl, hm => by
    obtain ⟨v, var, hv, ha, rfl, -⟩ := lowerStmt_assign h
    obtain ⟨hemits, hvar⟩ := emits_assignVar (F := F) ha
    have heval := hm.eval hL (fun hn => hΓ (hemits.locals hn)) hv
    simp only [Sem.execStmt]
    cases hr : S.eval ρ value dtype with
    | error f => exact .of_silent (silent_defVar_fault code hl (heval.trans hr)) (.fault _ l f) rfl
    | ok x =>
      exact .of_silent (silent_defVar code hl (heval.trans hr)) (frame_defVar hL (hΓ hvar) _ x _)
        ⟨rfl, hm.set hL (hΓ hvar) x _⟩
  | .ret value, loops, s, s', c, post, ρ, l, h, hΓ, hp, hcode, hs, hl, hm => by
    obtain ⟨v, hv, rfl, rfl, -⟩ := lowerStmt_ret h
    have heval := hm.eval hL hΓ hv
    rw [← hL.outputDtype] at heval
    simp only [Sem.execStmt]
    cases hr : S.eval ρ value S.outputDtype with
    | error f => exact .of_silent (silent_defVar_fault code hl (heval.trans hr)) (.fault _ l f) rfl
    | ok x =>
      have hset := silent_defVar code hl (heval.trans hr)
      have hjump := hset.trans (silent_jump code rfl)
      refine .of_silent hjump ⟨fun _ _ => rfl, ?_⟩ ⟨?_, ?_, rfl⟩
      · have hne : iVar ≠ cx.resultVar := by
          rw [hL.result]
          decide
        simp [Local.goto, Local.defVar, Local.resume, Function.update_of_ne hne]
      · exact (hm.setResult hL x _).of_vars rfl rfl
      · simp [Local.goto, Local.defVar, Local.resume, hL.result]
  | .brk, loops, s, s', c, post, ρ, l, h, hΓ, hp, hcode, hs, hl, hm => by
    cases loops with
    | nil => simp [lowerStmt] at h
    | cons frame outer =>
      simp only [lowerStmt] at h
      cases h
      exact .of_silent (silent_jump code hl) (.goto code _ l _)
        ⟨hm.of_vars rfl rfl, frame, outer, rfl, rfl⟩
  | .cont, loops, s, s', c, post, ρ, l, h, hΓ, hp, hcode, hs, hl, hm => by
    cases loops with
    | nil => simp [lowerStmt] at h
    | cons frame outer =>
      simp only [lowerStmt] at h
      cases h
      exact .of_silent (silent_jump code hl) (.goto code _ l _)
        ⟨hm.of_vars rfl rfl, frame, outer, rfl, rfl⟩
  | .forRange var start stop body, loops, s, s', c, post, ρ, l, h, hΓ, hp, hcode, hs, hl, hm => by
    obtain ⟨startV, stopV, bodyCode, s₃, hstart, hstop, hbody, rfl, rfl⟩ := lowerStmt_forRange h
    obtain ⟨hf, -, hvals, dtype, hcounter⟩ := emits_forBodyState (F := F) s var startV stopV
    set counter := (forBodyState s var startV stopV).1 with hcounterDef
    have hb := lowerBody_emits body hbody
    have hvar : Γ.lookup var = some (counter, dtype) := hΓ (hb.locals hcounter)
    have hΓs : ∀ {name p}, s.locals.lookup name = some p → Γ.lookup name = some p :=
      fun hn => hΓ (hb.locals (hf.locals hn))
    obtain ⟨⟨_, hhead⟩, ⟨_, hinc⟩, hbodyAt, hexit, hcode'⟩ := forCode_layout hcode hL.nodup
    refine follows_forEntry hL hΓs hstart hstop hvar hp hl hm ?_
    intro x y l' hl' hm' hy
    have hloop : Follows S.fl code (s.valTys.length + 2) l' fuel
        (S.forLoop var y (S.execBody fuel body) fuel (ρ.set var x)) (Lands code cx S Γ loops post) :=
      follows_forLoop hL hvar (by omega) hhead hinc hexit ?_ le_rfl hl' hm' hy
    · exact hloop.mono (by omega) le_rfl fun _ _ ho => ho
    · intro ρ' l' hl' hm'
      rw [hbodyAt] at hl'
      have hbodySim := lowerBody_follows hL fuel body hbody hΓ (by omega) hcode' rfl hl' hm'
      rw [hvals] at hbodySim
      exact hbodySim.close fun ht ρ'' => lowerBody_not_normal rfl hbody ht S fuel ρ' ρ''
  | .whileDo cond body, loops, s, s', c, post, ρ, l, h, hΓ, hp, hcode, hs, hl, hm => by
    obtain ⟨condV, bodyCode, s₃, hcond, hbody, rfl, rfl⟩ := lowerStmt_whileDo h
    have hb := lowerBody_emits body hbody
    obtain ⟨⟨_, hhead⟩, hbodyAt, hexit, hcode'⟩ := whileCode_layout hcode hL.nodup
    refine Follows.afterSilent fuel ?_ (silent_jump code hl) (.goto code _ l _) (Nat.le_add_left _ _)
    refine follows_whileLoop hL (fun hn => hΓ (hb.locals hn)) hcond hhead hexit ?_
      le_rfl rfl (hm.of_vars rfl rfl)
    intro ρ' l' hl' hm'
    rw [hbodyAt] at hl'
    have hbodySim := lowerBody_follows hL fuel body hbody hΓ hp hcode' rfl hl' hm'
    exact hbodySim.close fun ht ρ'' => lowerBody_not_normal rfl hbody ht S fuel ρ' ρ''
  | .ifElse test thenBody elseBody, loops, s, s', c, post, ρ, l, h, hΓ, hp, hcode, hs, hl, hm => by
    obtain ⟨cond, thenCode, s₁, elseCode, s₂, hcond, hthen, helse, rfl, rfl⟩ := lowerStmt_ifElse h
    have ht := lowerBody_emits thenBody hthen
    have he := lowerBody_emits elseBody helse
    obtain ⟨hthenAt, helseAt, hexit, hthenCode, helseCode⟩ :=
      ifCode_layout hcode hL.nodup
    have hlow := hm.eval hL (fun hn => hΓ (he.locals (ht.locals hn))) hcond
    have htest : l.eval S.fl cond >>= Val.truthy = S.test ρ test := by
      rw [hlow, Sem.test]
    simp only [Sem.execStmt]
    cases hb : S.test ρ test with
    | error f => exact .of_silent (silent_brif_fault code hl (htest.trans hb)) (.fault _ l f) rfl
    | ok b =>
      have hin := silent_brif code hl (htest.trans hb)
      cases b with
      | true =>
        have hsim := lowerBody_follows hL fuel thenBody (l := l.goto code s.nextBlock) hthen
          (fun hn => hΓ (he.locals hn)) hp hthenCode rfl (congrArg Control.at hthenAt)
          (hm.of_vars rfl rfl)
        have hclosed := hsim.close fun h' ρ' => lowerBody_not_normal rfl hthen h' S fuel ρ ρ'
        rw [hexit] at hclosed
        exact hclosed.afterSilent _ hin (.goto code _ l _) (by omega)
      | false =>
        have hlen : s.valTys.length ≤ s₁.valTys.length := ht.vals.length_le
        have hsim := lowerBody_follows hL fuel elseBody (l := l.goto code (s.nextBlock + 1)) helse
          hΓ (show cx.param < s₁.valTys.length by omega) helseCode rfl
          (congrArg Control.at helseAt) (hm.of_vars rfl rfl)
        have hclosed := hsim.close fun h' ρ' => lowerBody_not_normal rfl helse h' S fuel ρ ρ'
        rw [hexit] at hclosed
        exact (hclosed.mono hlen le_rfl fun _ _ ho => ho).afterSilent _ hin (.goto code _ l _) (by omega)

theorem lowerBody_follows {code : List (Item F)} {cx : LowerCx} {S : Sem F} {Γ : Locals}
    (hL : Lowered code cx S Γ) (fuel : ℕ) : ∀ (body : List (Stmt F)) {loops : List LoopFrame}
    {s s' : LowerState} {c post : List (Item F)} {ρ : Env F} {l : Local F},
    lowerBody cx loops body s = .ok (c, s') →
    (∀ {name p}, s'.locals.lookup name = some p → Γ.lookup name = some p) →
    cx.param < s.valTys.length → c ++ post <:+ code → s.terminated = false →
    l.ctl = .at (c ++ post) → Matches cx S Γ ρ l →
    Follows S.fl code s.valTys.length l fuel (S.execBody fuel body ρ)
      (Lands code cx S Γ loops post)
  | [], loops, s, s', c, post, ρ, l, h, hΓ, hp, hcode, hs, hl, hm => by
    cases h
    exact .of_silent (.refl l) (.refl _ l) ⟨hl, hm⟩
  | stmt :: rest, loops, s, s', c, post, ρ, l, h, hΓ, hp, hcode, hs, hl, hm => by
    obtain ⟨code₁, s₁, code₂, hstmt, hrest, rfl⟩ := lowerBody_cons hs h
    have he₁ := lowerStmt_emits stmt hstmt
    have he₂ := lowerBody_emits rest hrest
    have hfirst : Follows S.fl code s.valTys.length l fuel (S.execStmt fuel stmt ρ)
        (Lands code cx S Γ loops (code₂ ++ post)) :=
      lowerStmt_follows hL fuel stmt hstmt (fun hn => hΓ (he₂.locals hn)) hp (by simpa using hcode)
        hs (by simpa using hl) hm
    simp only [Sem.execBody]
    refine hfirst.andThen ?_
    intro ρ' l' hnormal _ hl' hm'
    cases hs₁ : s₁.terminated with
    | true => exact absurd hnormal (lowerStmt_not_normal hs hstmt hs₁ S fuel ρ ρ')
    | false =>
      have hlen := he₁.vals.length_le
      have hsecond := lowerBody_follows hL fuel rest hrest hΓ (by omega)
        ((List.suffix_append code₁ _).trans (by simpa using hcode)) hs₁ hl' hm'
      exact hsecond.mono hlen le_rfl fun _ _ ho => ho

end

end Gilmap
