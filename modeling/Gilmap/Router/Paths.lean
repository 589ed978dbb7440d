import Gilmap.Router.ErrorModel
import Gilmap.Router.LaneRouting

/-! # What the fast paths have captured

The closure of a decision holds what its detector has read of the callable, whatever the
router has been asked before.
-/
namespace Gilmap
open Library
variable {F : Type}

/-- The closures that the detectors make for the callable; without one it goes to the fallback. -/
inductive FastPath.Captures (fl : FloatOps F) (func : PyFunc F) : Option (FastPath F) → Prop
  | arrow {body : PyExpr F} {paramName : String} : funcBodyExpr func = some (body, paramName) →
      arrowLowers paramName body = true → Captures fl func (some (.arrow body paramName))
  | cfunc {addr : ℤ} {dtype : Dtype} : func.address = some addr → readCfuncDtypeSig func = some dtype →
      Captures fl func (some (.cfunc addr dtype))
  | numba : Captures fl func (some .numba)
  | jit {kernel : Kernel F} {code : Compiled F} {inDtype : Dtype} :
      tryCompile fl func.node inDtype = .compiled kernel code →
      Captures fl func (some (.jit kernel code inDtype kernel.outputDtype))
  | fallback : Captures fl func none

section Captures
variable {fl : FloatOps F} {cast : ArrowCast F} {func : PyFunc F} {decision : BackendDecision F}
  {arr iterable : PaArray F} {r r' : Router F} {out : Dispatched F}

theorem detectArrowKernel_captures (h : detectArrowKernel func = some decision) :
    FastPath.Captures fl func decision.fastPath := by
  unfold detectArrowKernel at h
  split at h
  · cases h
  · rename_i body paramName hbody
    split at h
    · cases h
      exact .arrow hbody ‹_›
    · cases h

theorem detectNumbaCfunc_captures (h : detectNumbaCfunc func = some decision) :
    FastPath.Captures fl func decision.fastPath := by
  unfold detectNumbaCfunc at h
  split at h
  · rename_i addr dtype haddr hdtype
    cases h
    exact .cfunc haddr hdtype
  · cases h

theorem detectNumba_captures (h : detectNumba func = some decision) :
    FastPath.Captures fl func decision.fastPath := by
  unfold detectNumba at h
  dsimp only at h
  split at h
  · cases h
    exact .numba
  · cases h

theorem detectJitLanes_captures {lanes : List Dtype}
    (h : detectJitLanes fl func lanes = .ok (some decision)) :
    FastPath.Captures fl func decision.fastPath := by
  induction lanes with
  | nil => cases h
  | cons d rest ih =>
    rw [detectJitLanes] at h
    split at h
    · exact ih h
    · cases h
    · rename_i kernel code hk
      cases h
      exact .jit hk

theorem detect_captures (h : detect fl func = .ok decision) :
    FastPath.Captures fl func decision.fastPath := by
  unfold detect at h
  split at h
  · rename_i found hfound
    cases h
    rcases (Option.orElse_eq_some _ _ _).mp hfound with harrow | ⟨-, hfound⟩
    · exact detectArrowKernel_captures harrow
    · rcases (Option.orElse_eq_some _ _ _).mp hfound with hcfunc | ⟨-, hnumba⟩
      · exact detectNumbaCfunc_captures hcfunc
      · exact detectNumba_captures hnumba
  · obtain ⟨found, hfound, h⟩ := Except.bind_eq_ok.mp h
    cases found with
    | none =>
      cases h
      exact .fallback
    | some found =>
      cases h
      exact detectJitLanes_captures hfound

/-- What a map call has gone through before its backend takes over. -/
theorem Router.map_cases (hr : Reachable (Router.step fl) Router.empty r) (hlive : func ∈ r.live)
    (h : r.map fl cast func iterable = .ok out) :
    ∃ (decision : BackendDecision F) (arr : PaArray F),
      FastPath.Captures fl func decision.fastPath ∧ toArrow cast iterable = .ok arr ∧
      decision.dispatch cast arr = .ok out := by
  obtain ⟨⟨decision, r'⟩, hd, h⟩ := Except.bind_eq_ok.mp h
  obtain ⟨arr, harr, h⟩ := Except.bind_eq_ok.mp h
  have hdecide : r.decide fl func = .ok (decision, r') := by
    cases hres : r.decide fl func with
    | error e =>
      rw [hres] at hd
      cases hd
    | ok p =>
      rw [hres] at hd
      cases hd
      rfl
  exact ⟨decision, arr, detect_captures ((Router.consistent_of_reachable hr).decide_eq hlive hdecide),
    harr, h⟩

/-- The array goes to the closure as `toArrow` has left it. -/
theorem BackendDecision.dispatch_native {path : FastPath F} {arr' : PaArray F}
    (h : decision.dispatch cast arr = .ok (.native path arr')) :
    decision.fastPath = some path ∧ arr' = arr := by
  unfold BackendDecision.dispatch at h
  split at h
  · obtain ⟨a, -, h⟩ := Except.bind_eq_ok.mp h
    unfold jitApply at h
    split at h <;> cases h
  · rename_i path' hjit hpath
    cases h
    exact ⟨hpath, rfl⟩
  · cases h

end Captures

end Gilmap
