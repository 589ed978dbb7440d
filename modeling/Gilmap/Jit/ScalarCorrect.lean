import Gilmap.Jit.ElementLoop

/-! # `compile_scalar` is correct

A compiled kernel maps the structured semantics over its input buffer: it returns, traps
or runs forever exactly when that semantics says so for the first element at which it is
not a plain value.
-/
namespace Gilmap
open Library
variable {F : Type}

/-! ## What a call does to its buffers -/

inductive BufferResult (F : Type)
  | done (out : List (Val F))
  | fault (f : Fault)
  | diverge

def BufferResult.cons (v : Val F) : BufferResult F → BufferResult F
  | .done out => .done (v :: out)
  | .fault f => .fault f
  | .diverge => .diverge

/-- The results of a buffer, element after element, up to the first one without a value. -/
inductive MapsTo (R : Val F → ElemResult F → Prop) : List (Val F) → BufferResult F → Prop
  | nil : MapsTo R [] (.done [])
  | value {x v : Val F} {xs : List (Val F)} {r : BufferResult F} :
      R x (.value v) → MapsTo R xs r → MapsTo R (x :: xs) (r.cons v)
  | fault {x : Val F} {xs : List (Val F)} {f : Fault} : R x (.fault f) → MapsTo R (x :: xs) (.fault f)
  | diverge {x : Val F} {xs : List (Val F)} : R x .diverge → MapsTo R (x :: xs) .diverge

theorem mapsTo_total {R : Val F → ElemResult F → Prop} (hR : ∀ x, ∃ r, R x r) (xs : List (Val F)) :
    ∃ r, MapsTo R xs r := by
  induction xs with
  | nil => exact ⟨_, .nil⟩
  | cons x xs ih =>
    obtain ⟨r, hr⟩ := hR x
    cases r with
    | fault f => exact ⟨_, .fault hr⟩
    | diverge => exact ⟨_, .diverge hr⟩
    | value v =>
      obtain ⟨r', hr'⟩ := ih
      exact ⟨_, .value hr hr'⟩

/-- The elements of the buffer at `base`. -/
def elements (m : Mem F) (base len : Addr) : List (Val F) :=
  (List.range len.toNat).map fun i => m (slot base i)

/-- What the call of a compiled kernel on two buffers comes to. -/
inductive Runs (fl : FloatOps F) (g : Compiled F) (inPtr outPtr len : Addr) (m : Mem F) :
    BufferResult F → Prop
  | done {n : ℕ} {tr : List (Access Addr (Val F))} {l' : Local F} {m' : Mem F} :
      Takes (clifNext fl g.code) n (g.enter fl inPtr outPtr len, m) tr (l', m') →
      l'.ctl = .returned → (∀ a, (∀ i < len.toNat, a ≠ slot outPtr i) → m' a = m a) →
      Runs fl g inPtr outPtr len m (.done (elements m' outPtr len))
  | fault {n : ℕ} {tr : List (Access Addr (Val F))} {l' : Local F} {m' : Mem F} {f : Fault} :
      Takes (clifNext fl g.code) n (g.enter fl inPtr outPtr len, m) tr (l', m') →
      l'.ctl = .faulted f → Runs fl g inPtr outPtr len m (.fault f)
  | diverge : Diverges (clifNext fl g.code) (g.enter fl inPtr outPtr len, m) →
      Runs fl g inPtr outPtr len m .diverge

theorem clifNext_returned {fl : FloatOps F} {code : List (Item F)} {l : Local F}
    (h : l.ctl = .returned) : clifNext fl code l = none := by
  simp [clifNext, h]

theorem clifNext_faulted {fl : FloatOps F} {code : List (Item F)} {l : Local F} {f : Fault}
    (h : l.ctl = .faulted f) : clifNext fl code l = none := by
  simp [clifNext, h]

/-- A call has one result. -/
theorem Runs.unique {fl : FloatOps F} {g : Compiled F} {inPtr outPtr len : Addr} {m : Mem F}
    {r r' : BufferResult F} (h : Runs fl g inPtr outPtr len m r)
    (h' : Runs fl g inPtr outPtr len m r') : r = r' := by
  cases h with
  | done hrun hret =>
    cases h' with
    | done hrun' hret' =>
      obtain ⟨-, -, he⟩ := hrun.halted_unique (clifNext_returned hret) hrun' (clifNext_returned hret')
      cases he
      rfl
    | fault hrun' hf =>
      obtain ⟨-, -, he⟩ := hrun.halted_unique (clifNext_returned hret) hrun' (clifNext_faulted hf)
      cases he
      simp [hret] at hf
    | diverge hd => exact absurd hd (hrun.not_diverges (clifNext_returned hret))
  | fault hrun hf =>
    cases h' with
    | done hrun' hret =>
      obtain ⟨-, -, he⟩ := hrun.halted_unique (clifNext_faulted hf) hrun' (clifNext_returned hret)
      cases he
      simp [hret] at hf
    | fault hrun' hf' =>
      obtain ⟨-, -, he⟩ := hrun.halted_unique (clifNext_faulted hf) hrun' (clifNext_faulted hf')
      cases he
      rw [hf] at hf'
      cases hf'
      rfl
    | diverge hd => exact absurd hd (hrun.not_diverges (clifNext_faulted hf))
  | diverge hd =>
    cases h' with
    | done hrun hret => exact absurd hd (hrun.not_diverges (clifNext_returned hret))
    | fault hrun hf => exact absurd hd (hrun.not_diverges (clifNext_faulted hf))
    | diverge => rfl

/-! ## The layout of a scalar kernel -/

section Scalar
variable {fl : FloatOps F} {k : Kernel F} {g : Compiled F}

theorem defineFunction_eq_ok {code : List (Item F)} {s : LowerState}
    (h : defineFunction code s = .ok g) :
    g.code = code ∧ g.varTy = s.varTy ∧ g.valTy = s.valTy ∧ g.locals = s.locals ∧
      ∀ item ∈ code, Item.verify s.varTy s.valTy item := by
  unfold defineFunction at h
  split at h
  · rename_i hall
    cases h
    exact ⟨rfl, rfl, rfl, rfl, List.all_eq_true.mp hall⟩
  · cases h

theorem getD_of_prefix {α : Type} {l l' : List α} (h : l <+: l') {i : ℕ} (hi : i < l.length) (d : α) :
    l'.getD i d = l.getD i d := by
  obtain ⟨t, rfl⟩ := h
  simp [List.getD_eq_getElem?_getD, List.getElem?_append_left hi]

/-- What the loop's code expects of the state in which a call starts. -/
structure EnterOk (g : Compiled F) : Prop where
  ptrs : ∀ j < 3, g.valTy j = .i64
  index : g.varTy iVar = .i64

theorem enter_typed (hg : EnterOk g) (hv : ∀ item ∈ g.code, Item.verify g.varTy g.valTy item)
    (inPtr outPtr len : Addr) : Typed g.varTy g.valTy (g.enter fl inPtr outPtr len) where
  vars v := zeroOf_ty fl _
  vals j := by
    simp only [Compiled.enter]
    split_ifs with h₀ h₁ h₂
    · rw [h₀, hg.ptrs 0 (by omega)]
      rfl
    · rw [h₁, hg.ptrs 1 (by omega)]
      rfl
    · rw [h₂, hg.ptrs 2 (by omega)]
      rfl
    · exact zeroOf_ty fl _
  code := by
    intro rest hr item hi
    cases hr
    exact hv item ((codeAfter_suffix 0 g.code).subset hi)

theorem scalarStart_ok (k : Kernel F) : LocalsOk (scalarStart k) where
  reserved := le_rfl
  bound h := by simp [scalarStart] at h
  typed h := by simp [scalarStart] at h
  inj h := by simp [scalarStart] at h

theorem compileScalar_loop (h : compileScalar fl k = .ok g) :
    EnterOk g ∧ (∃ r, codeAfter 0 g.code = .defVar iVar (.iconst 0) :: .jump 1 :: r) ∧
    ∃ bodyCode final,
      ElementLoop fl k g (scalarCx k) (scalarStart k) final bodyCode 1 2 4 := by
  simp only [compileScalar, Except.bind_eq_ok] at h
  obtain ⟨⟨body, s⟩, hbody, hdef⟩ := h
  obtain ⟨hcode, hvarTy, hvalTy, hlocals, hverify⟩ := defineFunction_eq_ok hdef
  have he := lowerBody_emits k.body hbody
  have hlabels : labelsOf g.code = [0, 1, 2] ++ labelsOf body ++ [3, 4] := by
    have hf : labelsOf (scalarFallback fl k s 3) = [] := by
      unfold scalarFallback
      split <;> rfl
    simp only [hcode, labelsOf_append, hf, List.append_nil]
    rfl
  have hnodup : (labelsOf g.code).Nodup := by
    rw [hlabels]
    apply nodup_around (by decide) he.nodup
    intro a ha ha'
    have : 5 ≤ a := (he.fresh a ha').1
    simp at ha
    omega
  have hvals := he.vals
  have hvars := he.vars
  have hstart : ∀ j < 4, g.valTy j = (scalarStart k).valTys.getD j .i64 := fun j hj => by
    rw [hvalTy]
    exact getD_of_prefix hvals hj _
  have hstartVar : ∀ j < 2, g.varTy j = (scalarStart k).varTys.getD j .i64 := fun j hj => by
    rw [hvarTy]
    exact getD_of_prefix hvars hj _
  have hsplit : g.code = scalarPrologue k ++ (body ++ (scalarFallback fl k s 3 ++ scalarEpilogue)) := by
    simp [hcode]
  have hpro : scalarPrologue k ++ (body ++ (scalarFallback fl k s 3 ++ scalarEpilogue)) <:+ g.code :=
    ⟨[], hsplit.symm⟩
  simp only [scalarPrologue, List.cons_append, List.nil_append] at hpro
  have hepi : scalarEpilogue <:+ g.code := ⟨_, hcode.symm⟩
  refine ⟨⟨fun j hj => ?_, ?_⟩, ⟨_, codeAfter_of_suffix hpro hnodup⟩, body, s, ?_⟩
  · rw [hstart j (by omega)]
    interval_cases j <;> rfl
  · exact hstartVar 0 (by omega)
  · exact {
      nodup := hnodup
      verified := by rw [hvarTy, hvalTy, hcode]; exact hverify
      head := ⟨_, codeAfter_of_suffix ((List.drop_suffix 3 _).trans hpro) hnodup⟩
      load := ⟨_, codeAfter_of_suffix ((List.drop_suffix 5 _).trans hpro) hnodup⟩
      exit := ⟨_, codeAfter_of_suffix hepi hnodup⟩
      leave := ⟨_, codeAfter_of_suffix ((List.drop_suffix 4 _).trans hepi) hnodup⟩
      lowered := hbody
      running := rfl
      startLocals := rfl
      startOk := scalarStart_ok k
      locals := hlocals.symm
      input := rfl
      output := rfl
      result := rfl
      param := by simp [scalarCx]
      paramBound := by simp [scalarCx, scalarStart]
      resultTy := hstartVar 1 (by omega) }

/-- A call reaches the test of the first element. -/
theorem enter_header (fl : FloatOps F) (hg : EnterOk g) (hv : ∀ item ∈ g.code, Item.verify g.varTy g.valTy item)
    {header : ℕ} {r : List (Item F)}
    (hr : codeAfter 0 g.code = .defVar iVar (.iconst 0) :: .jump header :: r)
    (inPtr outPtr len : Addr) :
    ∃ l, Silent fl g.code 2 (g.enter fl inPtr outPtr len) l ∧
      AtHeader g header inPtr outPtr len 0 l := by
  have hctl : (g.enter fl inPtr outPtr len).ctl = .at (.defVar iVar (.iconst 0) :: .jump header :: r) := by
    rw [← hr]
    rfl
  have hset : Silent fl g.code 1 _ _ := silent_defVar g.code (x := .i64 0) hctl rfl
  have hrun := hset.trans (silent_jump g.code rfl)
  refine ⟨_, hrun, rfl, ?_, rfl, rfl, rfl, (enter_typed hg hv inPtr outPtr len).takes hv (hrun fun _ => .i64 0)⟩
  simp [Local.goto, Local.resume, Local.defVar]

/-- The structured meaning of one element: the body run from no locals at all. -/
def Kernel.Element (fl : FloatOps F) (k : Kernel F) (x : Val F) (r : ElemResult F) : Prop :=
  (k.sem fl true x).Computes k.body Env.empty r

theorem Kernel.element_total (fl : FloatOps F) (k : Kernel F) (x : Val F) :
    ∃ r, k.Element fl x r := Sem.computes_total _ _ _

/-- When locals are assigned before they are read, leftovers do not matter. -/
theorem Kernel.Element.permissive {x : Val F} {r : ElemResult F} (h : k.Element fl x r)
    (hr : ∀ n, r ≠ .fault (.unassigned n)) (ρ : Env F) :
    (k.sem fl false x).Computes k.body ρ r :=
  Sem.Computes.permissive (S := k.sem fl true x) rfl h hr ρ

end Scalar

/-! ## Mapping a buffer -/

theorem drop_elements (m : Mem F) (base len : Addr) {i : ℕ} (hi : i < len.toNat) :
    (elements m base len).drop i = m (slot base i) :: (elements m base len).drop (i + 1) := by
  rw [List.drop_eq_getElem_cons (by simpa [elements] using hi)]
  simp [elements]

theorem eq_drop_elements {m : Mem F} {base len : Addr} {i : ℕ} {x : Val F} {xs : List (Val F)}
    (h : x :: xs = (elements m base len).drop i) :
    i < len.toNat ∧ x = m (slot base i) ∧ xs = (elements m base len).drop (i + 1) := by
  have hlt : i < len.toNat := by
    by_contra hge
    rw [List.drop_eq_nil_of_le (by simp [elements]; omega)] at h
    cases h
  rw [drop_elements m base len hlt] at h
  cases h
  exact ⟨hlt, rfl, rfl⟩

theorem Buffers.elements_update {m : Mem F} {inPtr outPtr len : Addr} {ty : ClTy}
    (hb : Buffers m inPtr outPtr len ty) {j : ℕ} (hj : j < len.toNat) (v : Val F) :
    elements (Function.update m (slot outPtr j) v) inPtr len = elements m inPtr len := by
  apply List.map_congr_left
  intro i hi
  rw [Function.update_of_ne (hb.slot_ne (List.mem_range.mp hi) hj)]

/-- What becomes of a call that is at the test of element `i`. -/
def RunsFrom (fl : FloatOps F) (g : Compiled F) (outPtr len : Addr) (i : ℕ) (l : Local F)
    (m : Mem F) : BufferResult F → Prop
  | .done out => ∃ n tr l' m', Takes (clifNext fl g.code) n (l, m) tr (l', m') ∧
      l'.ctl = .returned ∧ (∀ a, (∀ j, i ≤ j → j < len.toNat → a ≠ slot outPtr j) → m' a = m a) ∧
      out = (elements m' outPtr len).drop i
  | .fault f => ∃ n tr l' m', Takes (clifNext fl g.code) n (l, m) tr (l', m') ∧ l'.ctl = .faulted f
  | .diverge => Diverges (clifNext fl g.code) (l, m)

section Mapping
variable {fl : FloatOps F} {k : Kernel F} {g : Compiled F} {cx : LowerCx}
  {start final : LowerState} {bodyCode : List (Item F)} {header entry out : ℕ}
  {inPtr outPtr len : Addr}

/-- A round that stores `v`, followed by the rest of the buffer. -/
theorem RunsFrom.cons {i n : ℕ} {l l' : Local F} {m : Mem F} {v : Val F}
    {tr : List (Access Addr (Val F))} {r : BufferResult F}
    (hfits : outPtr.toNat + 8 * len.toNat ≤ 2 ^ 64) (hi : i < len.toNat)
    (hrun : Takes (clifNext fl g.code) n (l, m) tr (l', Function.update m (slot outPtr i) v))
    (h : RunsFrom fl g outPtr len (i + 1) l' (Function.update m (slot outPtr i) v) r) :
    RunsFrom fl g outPtr len i l m (r.cons v) := by
  cases r with
  | fault f =>
    obtain ⟨n', tr', l₂, m', hrun', hf⟩ := h
    exact ⟨n + n', _, l₂, m', hrun.trans hrun', hf⟩
  | diverge => exact Diverges.of_takes hrun h
  | done out =>
    obtain ⟨n', tr', l₂, m', hrun', hret, hkeep, rfl⟩ := h
    refine ⟨n + n', _, l₂, m', hrun.trans hrun', hret, ?_, ?_⟩
    · intro a ha
      rw [hkeep a fun j hj => ha j (by omega), Function.update_of_ne (ha i le_rfl hi)]
    · have hv : m' (slot outPtr i) = v := by
        rw [hkeep, Function.update_self]
        intro j hij hj he
        have := slot_inj hfits hi hj he
        omega
      rw [drop_elements m' outPtr len hi, hv]

theorem ElementLoop.maps (E : ElementLoop fl k g cx start final bodyCode header entry out)
    {R : Val F → ElemResult F → Prop}
    (hR : ∀ {x r}, R x r → ∀ ρ, (k.sem fl false x).Computes k.body ρ r) {xs : List (Val F)}
    {r : BufferResult F} (hmap : MapsTo R xs r) {i : ℕ} {l : Local F} {m : Mem F}
    (hxs : xs = (elements m inPtr len).drop i) (hi : i ≤ len.toNat)
    (hb : Buffers m inPtr outPtr len (clType k.inputDtype))
    (h : AtHeader g header inPtr outPtr len i l) : RunsFrom fl g outPtr len i l m r := by
  induction hmap generalizing i l m with
  | nil =>
    have hend : i = len.toNat := by
      by_contra hne
      rw [drop_elements m inPtr len (by omega)] at hxs
      cases hxs
    subst hend
    obtain ⟨l', hs, hret⟩ := E.return h
    refine ⟨2, [], l', m, hs m, hret, fun _ _ => rfl, ?_⟩
    exact (List.drop_eq_nil_of_le (by simp [elements])).symm
  | fault hx =>
    obtain ⟨hlt, rfl, -⟩ := eq_drop_elements hxs
    obtain ⟨n, l', hrun, hf⟩ := E.round h hlt (hb.typed i hlt) (hR hx _)
    exact ⟨n, _, l', m, hrun, hf⟩
  | diverge hx =>
    obtain ⟨hlt, rfl, -⟩ := eq_drop_elements hxs
    intro n
    obtain ⟨j, l', hj, hrun⟩ := E.round h hlt (hb.typed i hlt) (hR hx _) n
    exact ⟨j, _, _, hj, hrun⟩
  | @value _ v _ _ hx _ ih =>
    obtain ⟨hlt, rfl, hrest⟩ := eq_drop_elements hxs
    obtain ⟨n, l', hrun, hat⟩ := E.round h hlt (hb.typed i hlt) (hR hx _)
    have hws : ∀ w ∈ [(slot outPtr i, v)], ∃ j < len.toNat, w.1 = slot outPtr j :=
      fun w hw => ⟨i, hlt, congrArg Prod.fst (List.mem_singleton.mp hw)⟩
    refine RunsFrom.cons hb.outFits hlt hrun (ih ?_ hlt (hb.written hws) hat)
    rw [hb.elements_update hlt v, hrest]

/-- A whole call maps the meaning of the elements over the buffer. -/
theorem compileScalar_maps (hc : compileScalar fl k = .ok g) {R : Val F → ElemResult F → Prop}
    (hR : ∀ {x r}, R x r → ∀ ρ, (k.sem fl false x).Computes k.body ρ r) {m : Mem F}
    (hb : Buffers m inPtr outPtr len (clType k.inputDtype)) {r : BufferResult F}
    (hmap : MapsTo R (elements m inPtr len) r) : Runs fl g inPtr outPtr len m r := by
  obtain ⟨hg, ⟨_, hentry⟩, bodyCode, final, E⟩ := compileScalar_loop hc
  obtain ⟨l, hs, hat⟩ := enter_header fl hg E.verified hentry inPtr outPtr len
  have hfrom := E.maps hR hmap rfl (Nat.zero_le _) hb hat
  cases r with
  | fault f =>
    obtain ⟨n, tr, l', m', hrun, hf⟩ := hfrom
    exact .fault ((hs m).trans hrun) hf
  | diverge => exact .diverge (Diverges.of_takes (hs m) hfrom)
  | done out =>
    obtain ⟨n, tr, l', m', hrun, hret, hkeep, rfl⟩ := hfrom
    exact .done ((hs m).trans hrun) hret fun a ha => hkeep a fun j _ hj => ha j hj

/-- **Correctness of the lowering.** For a kernel whose locals are assigned before they are
read, a call of the compiled function has exactly the result that the structured semantics,
mapped over the input buffer, has. -/
theorem compileScalar_correct (hc : compileScalar fl k = .ok g) (ha : k.AssignsBeforeReads)
    {m : Mem F} (hb : Buffers m inPtr outPtr len (clType k.inputDtype)) (r : BufferResult F) :
    Runs fl g inPtr outPtr len m r ↔ MapsTo (k.Element fl) (elements m inPtr len) r := by
  have hforward : ∀ r, MapsTo (k.Element fl) (elements m inPtr len) r →
      Runs fl g inPtr outPtr len m r := fun r =>
    compileScalar_maps hc (fun h => h.permissive (ha.not_unassigned h)) hb
  constructor
  · intro h
    obtain ⟨r', hr'⟩ := mapsTo_total (k.element_total fl) (elements m inPtr len)
    rwa [h.unique (hforward r' hr')]
  · exact hforward r

end Mapping

/-- `acc = 0`, `for i in range(0, x): if i > 5: break; acc = acc + i`, `return acc` -/
def cappedSum : Kernel Float where
  inputDtype := .i64
  outputDtype := .i64
  body := [
    .assign "acc" .i64 (.constI64 0),
    .forRange "i" (.constI64 0) .param [
      .ifElse (.compare .gt (.localVar "i") (.constI64 5)) [.brk] [],
      .assign "acc" .i64 (.binOp .add (.localVar "acc") (.localVar "i"))],
    .ret (.localVar "acc")]

theorem compileScalar_correct_cappedSum :
    ∃ g, compileScalar hostFloats cappedSum = .ok g ∧
      Runs hostFloats g 0 1024 2 (fun _ => .i64 3) (.done [.i64 3, .i64 3]) := by
  cases hc : compileScalar hostFloats cappedSum with
  | error e =>
    have hok : (compileScalar hostFloats cappedSum).toBool = true := by decide
    rw [hc] at hok
    cases hok
  | ok g =>
    have hb : Buffers (fun _ => .i64 3 : Mem Float) 0 1024 2 (clType cappedSum.inputDtype) :=
      ⟨by decide, by decide, by decide, fun _ _ => rfl⟩
    have hx : cappedSum.Element hostFloats (.i64 3) (.value (.i64 3)) := .ends (n := 5) rfl rfl
    refine ⟨g, rfl, (compileScalar_correct hc (by decide) hb _).mpr ?_⟩
    exact MapsTo.value hx (MapsTo.value hx .nil)

end Gilmap
