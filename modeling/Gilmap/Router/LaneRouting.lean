import Gilmap.Router.Decide

/-! # Which lane the JIT backend serves

The decision for a callable is made before any data is seen, and holds the kernel of the
first lane that compiles. An array of the other dtype is cast to that lane.
-/
namespace Gilmap
open Library
variable {F : Type}

/-! ## The cache holds what the detectors give -/

/-- Every cached decision belongs to a live callable, whose finalizer is set. -/
structure Router.Consistent (fl : FloatOps F) (r : Router F) : Prop where
  unique : (r.live.map (·.id)).Nodup
  cached : ∀ p ∈ r.decisions, ∃ f ∈ r.live, f.id = p.1 ∧ detect fl f = .ok p.2
  watched : ∀ p ∈ r.decisions, p.1 ∈ r.finalizers

section Cache
variable {fl : FloatOps F} {r r' : Router F} {func g : PyFunc F} {decision : BackendDecision F}

theorem Router.Consistent.eq_of_id (h : r.Consistent fl) (hf : func ∈ r.live) (hg : g ∈ r.live)
    (hid : func.id = g.id) : func = g :=
  List.inj_on_of_nodup_map h.unique hf hg hid

/-- `decide` returns what the detectors give for the callable itself. -/
theorem Router.Consistent.decide_eq (h : r.Consistent fl) (hlive : func ∈ r.live)
    (hd : r.decide fl func = .ok (decision, r')) : detect fl func = .ok decision := by
  unfold Router.decide at hd
  cases hl : r.decisions.lookup func.id with
  | some cached =>
    rw [hl] at hd
    cases hd
    obtain ⟨f, hf, hid, hdet⟩ := h.cached _ (mem_of_lookup hl)
    rwa [h.eq_of_id hlive hf hid.symm]
  | none =>
    simp only [hl, Except.bind_eq_ok] at hd
    obtain ⟨d, hdet, hd⟩ := hd
    cases hd
    exact hdet

theorem Router.Consistent.cacheDecision (h : r.Consistent fl) (hlive : func ∈ r.live)
    (hdet : detect fl func = .ok decision) : (r.cacheDecision func decision).Consistent fl := by
  unfold Router.cacheDecision
  split
  · refine ⟨h.unique, ?_, ?_⟩
    · intro p hp
      rcases List.mem_cons.mp hp with rfl | hp
      · exact ⟨func, hlive, rfl, hdet⟩
      · exact h.cached p hp
    · intro p hp
      rcases List.mem_cons.mp hp with rfl | hp
      · exact List.mem_cons_self
      · exact List.mem_cons_of_mem _ (h.watched p hp)
  · exact ⟨h.unique, fun p hp => h.cached p (List.mem_of_mem_filter hp),
      fun p hp => h.watched p (List.mem_of_mem_filter hp)⟩

theorem Router.Consistent.drop (h : r.Consistent fl) (id : ℕ) :
    (if id ∈ r.finalizers then ({ r with live := r.live.filter (·.id ≠ id) } : Router F).evict id
      else { r with live := r.live.filter (·.id ≠ id) }).Consistent fl := by
  have hkeep : ∀ p ∈ r.decisions, p.1 ≠ id →
      ∃ f ∈ r.live.filter (·.id ≠ id), f.id = p.1 ∧ detect fl f = .ok p.2 := by
    intro p hp hne
    obtain ⟨f, hf, hid, hdet⟩ := h.cached p hp
    exact ⟨f, List.mem_filter.mpr ⟨hf, by simpa [hid] using hne⟩, hid, hdet⟩
  split
  · refine ⟨h.unique.sublist (List.filter_sublist.map _), ?_, ?_⟩
    · intro p hp
      obtain ⟨hp, hne⟩ := List.mem_filter.mp hp
      exact hkeep p hp (by simpa using hne)
    · intro p hp
      obtain ⟨hp, hne⟩ := List.mem_filter.mp hp
      exact List.mem_filter.mpr ⟨h.watched p hp, hne⟩
  · rename_i hfin
    refine ⟨h.unique.sublist (List.filter_sublist.map _), fun p hp => hkeep p hp ?_, h.watched⟩
    rintro rfl
    exact hfin (h.watched p hp)

theorem Router.Consistent.step {a : RouterAction F} (h : r.Consistent fl)
    (hs : r.step fl a = some r') : r'.Consistent fl := by
  cases a with
  | create func =>
    simp only [Router.step] at hs
    split at hs
    · rename_i hnew
      cases hs
      refine ⟨List.nodup_cons.mpr ⟨fun hmem => ?_, h.unique⟩, fun p hp => ?_, h.watched⟩
      · obtain ⟨f, hf, hid⟩ := List.mem_map.mp hmem
        simpa [hid] using List.all_eq_true.mp hnew f hf
      · obtain ⟨f, hf, hdet⟩ := h.cached p hp
        exact ⟨f, List.mem_cons_of_mem _ hf, hdet⟩
    · cases hs
  | drop id =>
    cases hs
    exact h.drop id
  | decide id =>
    obtain ⟨func, hfind, hs⟩ := Option.bind_eq_some_iff.mp hs
    have hlive := List.mem_of_find?_eq_some hfind
    cases hd : r.decide fl func with
    | error e =>
      simp only [hd] at hs
      cases hs
      exact h
    | ok result =>
      simp only [hd] at hs
      cases hs
      have hdet := h.decide_eq hlive hd
      unfold Router.decide at hd
      cases hl : r.decisions.lookup func.id with
      | some cached =>
        rw [hl] at hd
        cases hd
        exact h
      | none =>
        simp only [hl, Except.bind_eq_ok] at hd
        obtain ⟨d, -, hd⟩ := hd
        cases hd
        exact h.cacheDecision hlive hdet
  | resetCache =>
    cases hs
    exact ⟨h.unique, by simp, by simp⟩

theorem Router.consistent_of_reachable (h : Reachable (Router.step fl) Router.empty r) :
    r.Consistent fl :=
  h.invariant ⟨List.nodup_nil, by simp [Router.empty], by simp [Router.empty]⟩
    fun hI hs => hI.step hs

end Cache

/-! ## The lane of a decision -/

def PyFunc.compilesFor (fl : FloatOps F) (func : PyFunc F) (d : Dtype) : Bool :=
  match tryCompile fl func.node d with
  | .compiled _ _ => true
  | .rejected | .raises => false

/-- What happens to the array keeps to its lane: the kernel that `try_compile` produces for
its dtype runs over it; without such a kernel the array is not cast. -/
def KeepsLane (fl : FloatOps F) (func : PyFunc F) (d : Dtype) (arr : PaArray F)
    (out : Except MapError (Dispatched F)) : Prop :=
  match tryCompile fl func.node d with
  | .compiled kernel code => out = .ok (.jit ⟨kernel, code, d, kernel.outputDtype, arr⟩)
  | .rejected | .raises =>
    (∀ call, out = .ok (.jit call) → call.array = arr) ∧ ∀ e, out ≠ .error (.cast e)

/-- A cast array has the type that was asked for. -/
def TypedCast (cast : ArrowCast F) : Prop := ∀ arr d arr', cast arr d = .ok arr' → arr'.type = .lane d

section Lanes
variable {fl : FloatOps F} {func : PyFunc F} {decision : BackendDecision F} {cast : ArrowCast F}
  {arr : PaArray F} {d : Dtype}

theorem not_jit_of_earlier
    (h : (detectArrowKernel func <|> detectNumbaCfunc func <|> detectNumba func) = some decision) :
    decision.backend ≠ .jit := by
  have harrow : ∀ d, detectArrowKernel func = some d → d.backend = .arrowKernel := by
    intro d hd
    unfold detectArrowKernel at hd
    split at hd
    · cases hd
    · split at hd <;> cases hd
      rfl
  have hcfunc : ∀ d, detectNumbaCfunc func = some d → d.backend = .numbaCfunc := by
    intro d hd
    unfold detectNumbaCfunc at hd
    split at hd <;> cases hd
    rfl
  have hnumba : ∀ d, detectNumba func = some d → d.backend = .numbaNative := by
    intro d hd
    unfold detectNumba at hd
    dsimp only at hd
    split at hd <;> cases hd
    rfl
  cases ha : detectArrowKernel func with
  | some d =>
    rw [ha] at h
    cases h
    simp [harrow _ ha]
  | none =>
    cases hc : detectNumbaCfunc func with
    | some d =>
      rw [ha, hc] at h
      cases h
      simp [hcfunc _ hc]
    | none =>
      rw [ha, hc] at h
      simp [hnumba _ h]

/-- A decision for the JIT holds the kernel of the first lane that compiles. -/
theorem detect_jit (h : detect fl func = .ok decision) (hjit : decision.backend = .jit) :
    ∃ lane kernel code, tryCompile fl func.node lane = .compiled kernel code ∧
      decision.fastPath = some (.jit kernel code lane kernel.outputDtype) ∧
      (lane = .f64 ↔ func.compilesFor fl .f64) := by
  unfold detect at h
  split at h
  · -- the detectors in front of the JIT name their own backends
    rename_i found hfound
    cases h
    exact absurd hjit (not_jit_of_earlier hfound)
  · simp only [Except.bind_eq_ok] at h
    obtain ⟨found, hfound, h⟩ := h
    cases found with
    | none =>
      cases h
      cases hjit
    | some found =>
      cases h
      simp only [detectJit, detectJitLanes] at hfound
      unfold PyFunc.compilesFor
      cases hf : tryCompile fl func.node .f64 with
      | compiled kernel code =>
        simp only [hf] at hfound
        cases hfound
        exact ⟨.f64, kernel, code, hf, rfl, by simp⟩
      | raises =>
        simp only [hf] at hfound
        cases hfound
      | rejected =>
        simp only [hf] at hfound
        cases hi : tryCompile fl func.node .i64 with
        | compiled kernel code =>
          simp only [hi] at hfound
          cases hfound
          exact ⟨.i64, kernel, code, hi, rfl, by simp⟩
        | raises =>
          simp only [hi] at hfound
          cases hfound
        | rejected =>
          simp only [hi] at hfound
          cases hfound

/-- The fast path of a JIT decision keeps the lane of an array exactly when it is the lane
of the kernel. -/
theorem dispatch_keepsLane_iff {lane : Dtype} {kernel : Kernel F} {code : Compiled F}
    (hcast : TypedCast cast) (hk : tryCompile fl func.node lane = .compiled kernel code)
    (hfast : decision.fastPath = some (.jit kernel code lane kernel.outputDtype))
    (hty : arr.type = .lane d) : KeepsLane fl func d arr (decision.dispatch cast arr) ↔ d = lane := by
  constructor
  · intro h
    by_contra hne
    have hcasts : decision.dispatch cast arr =
        ((cast arr lane).mapError .cast >>= fun arr' =>
          (jitApply kernel code lane kernel.outputDtype arr').map .jit) := by
      simp only [BackendDecision.dispatch, hfast, castToDtypeTag, hty]
      rw [if_neg (by simpa using hne)]
    unfold KeepsLane at h
    cases hc : cast arr lane with
    | error e =>
      have hout : decision.dispatch cast arr = .error (.cast e) := by rw [hcasts, hc]; rfl
      cases ht : tryCompile fl func.node d <;> simp only [ht, hout] at h
      · exact h.2 e rfl
      · cases h
      · exact h.2 e rfl
    | ok arr' =>
      have hty' := hcast _ _ _ hc
      have hout : decision.dispatch cast arr =
          .ok (.jit ⟨kernel, code, lane, kernel.outputDtype, arr'⟩) := by
        rw [hcasts, hc]
        simp only [Except.mapError, jitApply, bind, Except.bind, hty', if_true]
        rfl
      have harr : arr' ≠ arr := by
        rintro rfl
        rw [hty] at hty'
        cases hty'
        exact hne rfl
      cases ht : tryCompile fl func.node d <;> simp only [ht, hout] at h
      · exact harr (h.1 _ rfl)
      · cases h
        exact harr rfl
      · exact harr (h.1 _ rfl)
  · rintro rfl
    unfold KeepsLane
    rw [hk]
    simp only [BackendDecision.dispatch, hfast, castToDtypeTag, jitApply, hty, if_true, bind,
      Except.bind]
    rfl

/-- **Lane fidelity.** In every state of the router, a callable routed to the JIT keeps the
lane of an array exactly when the array is `f64` just where the callable compiles for `f64`. -/
theorem jit_keepsLane_iff {r r' : Router F} (hr : Reachable (Router.step fl) Router.empty r)
    (hlive : func ∈ r.live) (hd : r.decide fl func = .ok (decision, r'))
    (hjit : decision.backend = .jit) (hcast : TypedCast cast) (hty : arr.type = .lane d) :
    KeepsLane fl func d arr (r.map fl cast func arr) ↔ (d = .f64 ↔ func.compilesFor fl .f64) := by
  have hdet := (Router.consistent_of_reachable hr).decide_eq hlive hd
  obtain ⟨lane, kernel, code, hk, hfast, hlane⟩ := detect_jit hdet hjit
  have hmap : r.map fl cast func arr = decision.dispatch cast arr := by
    simp only [Router.map, hd, toArrow, hty]
    rfl
  rw [hmap, dispatch_keepsLane_iff hcast hk hfast hty, ← hlane]
  cases d <;> cases lane <;> simp

end Lanes

/-! ## Two callables -/

/-- The integers that have no exact `float64`, by pyarrow's bound. -/
def refusedInts (values : List (Val F)) : List ℤ :=
  values.filterMap fun
    | .i64 b => if b.toInt.natAbs ≤ 2 ^ 53 then none else some b.toInt
    | _ => none

/-- `int64` to `float64` as pyarrow casts by default. -/
def safeCast (fl : FloatOps F) : ArrowCast F := fun arr d =>
  match arr.type, d, refusedInts arr.values with
  | .lane .i64, .f64, [] => .ok ⟨.lane .f64, arr.values.map fun
    | .i64 b => .f64 (fl.ofInt b)
    | v => v⟩
  | .lane .i64, .f64, v :: _ => .error (.arrowInvalid
    s!"Integer value {v} not in range: -9007199254740992 to 9007199254740992")
  | _, _, _ => .error (.other "ArrowNotImplementedError")

theorem safeCast_typed (fl : FloatOps F) : TypedCast (safeCast fl) := by
  intro arr d arr' h
  unfold safeCast at h
  split at h <;> cases h
  rfl

/-- A Python function that is no numba object. -/
def plainFunc (node : FnNode (BitVec 64)) : PyFunc (BitVec 64) :=
  ⟨0, true, some node, none, none, false, false, "builtins"⟩

/-- `def f(x): y = x % 7; return y` compiles for `i64` only. -/
def weekday : PyFunc (BitVec 64) :=
  plainFunc (.functionDef ["x"] [.assign [.name "y"] (.binOp (.name "x") .mod (.constant (.int 7))),
    .ret (some (.name "y"))])

/-- `def f(x): y = x; return y + y` compiles for both lanes. -/
def doubled : PyFunc (BitVec 64) :=
  plainFunc (.functionDef ["x"] [.assign [.name "y"] (.name "x"),
    .ret (some (.binOp (.name "y") .add (.name "y")))])

/-- The router after the callable was created. -/
def routerOf (func : PyFunc F) : Router F := ⟨[func], [], []⟩

theorem routerOf_reachable (fl : FloatOps F) (func : PyFunc F) :
    Reachable (Router.step fl) Router.empty (routerOf func) :=
  Reachable.refl.snoc (a := .create func) rfl

theorem exists_decision {fl : FloatOps F} {r : Router F} {func : PyFunc F} {b : Backend}
    (h : (r.decide fl func).toOption.map (·.1.backend) = some b) :
    ∃ decision r', r.decide fl func = .ok (decision, r') ∧ decision.backend = b := by
  cases hd : r.decide fl func with
  | error e =>
    rw [hd] at h
    cases h
  | ok result =>
    rw [hd] at h
    exact ⟨result.1, result.2, rfl, Option.some.inj h⟩

theorem jit_keepsLane_weekday : KeepsLane hostFloatBits weekday .i64 ⟨.lane .i64, [.i64 9]⟩
    ((routerOf weekday).map hostFloatBits (safeCast hostFloatBits) weekday
      ⟨.lane .i64, [.i64 9]⟩) := by
  obtain ⟨decision, r', hd, hjit⟩ : ∃ decision r',
      (routerOf weekday).decide hostFloatBits weekday = .ok (decision, r') ∧
        decision.backend = .jit := exists_decision (by decide +kernel)
  exact (jit_keepsLane_iff (routerOf_reachable hostFloatBits weekday) List.mem_cons_self hd hjit
    (safeCast_typed hostFloatBits) rfl).mpr (by decide +kernel)

/-- `2 ** 53 + 1` is rejected, although `doubled` compiles for `i64`. -/
theorem int64_leaves_lane : ∃ decision r' message,
    (routerOf doubled).decide hostFloatBits doubled = .ok (decision, r') ∧
      decision.backend = .jit ∧ doubled.compilesFor hostFloatBits .i64 = true ∧
      (routerOf doubled).map hostFloatBits (safeCast hostFloatBits) doubled
          ⟨.lane .i64, [.i64 9007199254740993]⟩ = .error (.cast (.arrowInvalid message)) ∧
      ¬ KeepsLane hostFloatBits doubled .i64 ⟨.lane .i64, [.i64 9007199254740993]⟩
        ((routerOf doubled).map hostFloatBits (safeCast hostFloatBits) doubled
          ⟨.lane .i64, [.i64 9007199254740993]⟩) := by
  obtain ⟨decision, r', hd, hjit⟩ : ∃ decision r',
      (routerOf doubled).decide hostFloatBits doubled = .ok (decision, r') ∧
        decision.backend = .jit := exists_decision (by decide +kernel)
  have hi : doubled.compilesFor hostFloatBits .i64 = true := by decide
  obtain ⟨lane, kernel, code, hk, hfast, hlane⟩ :=
    detect_jit ((Router.consistent_of_reachable
      (routerOf_reachable hostFloatBits doubled)).decide_eq List.mem_cons_self hd) hjit
  obtain rfl : lane = .f64 := hlane.mpr (by decide +kernel)
  have hmap : (routerOf doubled).map hostFloatBits (safeCast hostFloatBits) doubled
      ⟨.lane .i64, [.i64 9007199254740993]⟩ =
        .error (.cast (.arrowInvalid (s!"Integer value {(9007199254740993 : ℤ)} not in range: " ++
          "-9007199254740992 to 9007199254740992"))) := by
    simp only [Router.map, hd, toArrow, Except.mapError, bind, Except.bind,
      BackendDecision.dispatch, hfast, castToDtypeTag]
    rfl
  refine ⟨decision, r', _, hd, hjit, hi, hmap, ?_⟩
  rw [hmap]
  intro h
  unfold PyFunc.compilesFor at hi
  unfold KeepsLane at h
  cases ht : tryCompile hostFloatBits doubled.node .i64 with
  | compiled k g =>
    rw [ht] at h
    cases h
  | rejected =>
    rw [ht] at hi
    cases hi
  | raises =>
    rw [ht] at hi
    cases hi

end Gilmap
