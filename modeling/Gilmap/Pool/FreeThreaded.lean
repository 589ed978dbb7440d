import Gilmap.Pool.Rayon
import Gilmap.Pool.SysPath

/-! # Calls on the free-threaded build

`execute_rayon` of `src/rayon_pool.rs`. All calls share the main interpreter: each of them
brings its `sys.path` under the lock of `LAST_SYS_PATH_ID`, imports its function and runs
its chunks, while other threads run calls of their own or change `sys.path`.
-/
namespace Gilmap
open Library
variable {F M Fn Obj : Type}

/-! ## State and steps -/

/-- Where a call of `execute_rayon` is. -/
inductive RayonCallPhase (F Fn : Type) (d : Dtype)
  /-- in front of `LAST_SYS_PATH_ID.lock()` -/
  | starting
  /-- with the lock, and the entries still to look at -/
  | patching (rest : List String)
  /-- `__contains__` has said no to `p` -/
  | appending (p : String) (rest : List String)
  | importing
  | inScope (func : Fn) (scope : Scope F d)
  | returned (result : Except String (List (Elem F d)))
  /-- an exception of its own, outside of `run_chunks` -/
  | raised (e : String)

def RayonCallPhase.patches {d : Dtype} : RayonCallPhase F Fn d → Bool
  | .patching _ | .appending _ _ => true
  | .starting | .importing | .inScope _ _ | .returned _ | .raised _ => false

def RayonCallPhase.ended {d : Dtype} : RayonCallPhase F Fn d → Bool
  | .returned _ | .raised _ => true
  | .starting | .patching _ | .appending _ _ | .importing | .inScope _ _ => false

/-- A call of `execute_rayon`; its array has no values if it is of neither dtype. -/
structure RayonCall (F Fn : Type) where
  names : Names
  sysPath : List String
  dtype : Dtype
  input : Option (List (Elem F dtype))
  phase : RayonCallPhase F Fn dtype

/-- The main interpreter, `LAST_SYS_PATH_ID` with the call that holds its lock, and the calls. -/
structure FreeThreaded (F M Fn : Type) where
  numThreads : ℕ
  interp : Interp M
  lastSysPathId : ℕ
  lock : Option ℕ
  calls : List (RayonCall F Fn)

def FreeThreaded.init (numThreads : ℕ) (sysPath : List String) : FreeThreaded F M Fn where
  numThreads := numThreads
  interp := ⟨sysPath, []⟩
  lastSysPathId := 2 ^ 64 - 1
  lock := none
  calls := []

inductive RayonCallAction (F : Type)
  | execute (names : Names) (sysPath : List String) (array : ArrowArray F)
  | call (i : ℕ)
  | scope (i : ℕ) (a : RayonAction)
  /-- a call that holds the lock is left by an exception -/
  | fault (i : ℕ) (e : String)
  /-- another thread changes `sys.path` -/
  | edit (sysPath : List String)

/-- A step of the call `i`, or of a task of its. -/
def RayonCallAction.isOwn (i : ℕ) : RayonCallAction F → Bool
  | .call j | .scope j _ => i == j
  | .execute _ _ _ | .fault _ _ | .edit _ => false

/-- The scope that `run_chunks` opens. -/
def openScope (fl : FloatOps F) (numThreads : ℕ) {d : Dtype} (input : List (Elem F d)) : Scope F d :=
  .init (zeroElem fl d) (pickChunkSize input.length numThreads) input

def RayonCall.begin (names : Names) (sysPath : List String) : ArrowArray F → RayonCall F Fn
  | .int64 values => ⟨names, sysPath, .i64, some values, .starting⟩
  | .float64 values => ⟨names, sysPath, .f64, some values, .starting⟩
  | .other _ => ⟨names, sysPath, .i64, none, .starting⟩

namespace FreeThreaded
variable (s : FreeThreaded F M Fn) (P : PyWorld F M Fn Obj)

def setPhase (i : ℕ) (call : RayonCall F Fn) (phase : RayonCallPhase F Fn call.dtype) :
    FreeThreaded F M Fn :=
  { s with calls := s.calls.set i { call with phase := phase } }

/-- The next step of the call `i`. -/
def stepCall (i : ℕ) : Option (FreeThreaded F M Fn) := do
  let call ← s.calls[i]?
  match call.phase with
  | .starting =>
    if s.lock.isSome then none
    else if s.lastSysPathId = P.sysPathId call.sysPath then some (s.setPhase i call .importing)
    else some { s.setPhase i call (.patching call.sysPath) with lock := some i }
  | .patching [] =>
    some { s.setPhase i call .importing with
      lastSysPathId := P.sysPathId call.sysPath
      lock := none }
  | .patching (p :: rest) =>
    some (s.setPhase i call (if p ∈ s.interp.sysPath then .patching rest else .appending p rest))
  | .appending p rest =>
    some { s.setPhase i call (.patching rest) with
      interp := { s.interp with sysPath := s.interp.sysPath ++ [p] } }
  | .importing =>
    match P.resolve 0 s.interp call.names with
    | (.error e, interp) => some { s.setPhase i call (.raised e) with interp := interp }
    | (.ok func, interp) =>
      match call.input with
      | none => some { s.setPhase i call (.raised dtypeError) with interp := interp }
      | some input =>
        let scope := openScope P.fl s.numThreads input
        some { s.setPhase i call (.inScope func scope) with interp := interp }
  | .inScope _ scope => do
    let result ← scope.result
    some (s.setPhase i call (.returned result))
  | .returned _ | .raised _ => none

/-- The next step of a task in the scope of the call `i`, or of the loop that spawns them. -/
def stepScope (i : ℕ) (a : RayonAction) : Option (FreeThreaded F M Fn) := do
  let call ← s.calls[i]?
  match call.phase with
  | .inScope func scope => do
    let scope ← scope.step P.fl P.toPyObjects func a
    some (s.setPhase i call (.inScope func scope))
  | .starting | .patching _ | .appending _ _ | .importing | .returned _ | .raised _ => none

/-- `?` drops the guard and leaves `*last` as it is. -/
def fault (i : ℕ) (e : String) : Option (FreeThreaded F M Fn) := do
  let call ← s.calls[i]?
  if call.phase.patches then some { s.setPhase i call (.raised e) with lock := none } else none

end FreeThreaded

def PyWorld.rayonStep (P : PyWorld F M Fn Obj) (s : FreeThreaded F M Fn) :
    RayonCallAction F → Option (FreeThreaded F M Fn)
  | .execute names sysPath array => some { s with calls := s.calls ++ [.begin names sysPath array] }
  | .call i => s.stepCall P i
  | .scope i a => s.stepScope P i a
  | .fault i e => s.fault i e
  | .edit sysPath => some { s with interp := { s.interp with sysPath := sysPath } }

/-! ## Steps by cases -/

/-- The cases of `stepCall` and `stepScope`. -/
inductive RayonCallStep (P : PyWorld F M Fn Obj) (s : FreeThreaded F M Fn) (i : ℕ)
    (call : RayonCall F Fn) : FreeThreaded F M Fn → Prop
  | skip : call.phase = .starting → s.lock = none → s.lastSysPathId = P.sysPathId call.sysPath →
      RayonCallStep P s i call (s.setPhase i call .importing)
  | lock : call.phase = .starting → s.lock = none →
      RayonCallStep P s i call { s.setPhase i call (.patching call.sysPath) with lock := some i }
  | unlock : call.phase = .patching [] →
      RayonCallStep P s i call { s.setPhase i call .importing with
        lastSysPathId := P.sysPathId call.sysPath
        lock := none }
  | contained {p : String} {rest : List String} : call.phase = .patching (p :: rest) →
      p ∈ s.interp.sysPath → RayonCallStep P s i call (s.setPhase i call (.patching rest))
  | notContained {p : String} {rest : List String} : call.phase = .patching (p :: rest) →
      RayonCallStep P s i call (s.setPhase i call (.appending p rest))
  | append {p : String} {rest : List String} : call.phase = .appending p rest →
      RayonCallStep P s i call { s.setPhase i call (.patching rest) with
        interp := { s.interp with sysPath := s.interp.sysPath ++ [p] } }
  | importFailed {e : String} {interp : Interp M} : call.phase = .importing →
      P.resolve 0 s.interp call.names = (.error e, interp) →
      RayonCallStep P s i call { s.setPhase i call (.raised e) with interp := interp }
  | wrongDtype {func : Fn} {interp : Interp M} : call.phase = .importing →
      P.resolve 0 s.interp call.names = (.ok func, interp) → call.input = none →
      RayonCallStep P s i call { s.setPhase i call (.raised dtypeError) with interp := interp }
  | imported {func : Fn} {interp : Interp M} {input : List (Elem F call.dtype)} :
      call.phase = .importing → P.resolve 0 s.interp call.names = (.ok func, interp) →
      call.input = some input →
      RayonCallStep P s i call
        { s.setPhase i call (.inScope func (openScope P.fl s.numThreads input)) with interp := interp }
  | scope {func : Fn} {scope scope' : Scope F call.dtype} {a : RayonAction} :
      call.phase = .inScope func scope → scope.step P.fl P.toPyObjects func a = some scope' →
      RayonCallStep P s i call (s.setPhase i call (.inScope func scope'))
  | joined {func : Fn} {scope : Scope F call.dtype} {result : Except String (List (Elem F call.dtype))} :
      call.phase = .inScope func scope → scope.result = some result →
      RayonCallStep P s i call (s.setPhase i call (.returned result))

section Cases
variable {P : PyWorld F M Fn Obj} {s s' : FreeThreaded F M Fn} {i : ℕ}

theorem rayonCall_cases (hs : s.stepCall P i = some s') :
    ∃ call, s.calls[i]? = some call ∧ RayonCallStep P s i call s' := by
  obtain ⟨call, hcall, hs⟩ := Option.bind_eq_some_iff.mp hs
  refine ⟨call, hcall, ?_⟩
  split at hs
  · rename_i hphase
    split at hs
    · cases hs
    · rename_i hfree
      have hlock : s.lock = none := by simpa using hfree
      split at hs
      · cases hs
        exact .skip hphase hlock ‹_›
      · cases hs
        exact .lock hphase hlock
  · cases hs
    exact .unlock ‹_›
  · rename_i p rest hphase
    cases hs
    split
    · exact .contained hphase ‹_›
    · exact .notContained hphase
  · cases hs
    exact .append ‹_›
  · rename_i hphase
    split at hs
    · cases hs
      exact .importFailed hphase ‹_›
    · rename_i func interp hresolve
      split at hs
      · cases hs
        exact .wrongDtype hphase hresolve ‹_›
      · cases hs
        exact .imported hphase hresolve ‹_›
  · rename_i func scope hphase
    obtain ⟨result, hresult, hs⟩ := Option.bind_eq_some_iff.mp hs
    cases hs
    exact .joined hphase hresult
  · cases hs
  · cases hs

theorem rayonScope_cases {a : RayonAction} (hs : s.stepScope P i a = some s') :
    ∃ call, s.calls[i]? = some call ∧ RayonCallStep P s i call s' := by
  obtain ⟨call, hcall, hs⟩ := Option.bind_eq_some_iff.mp hs
  refine ⟨call, hcall, ?_⟩
  split at hs
  · rename_i func scope hphase
    obtain ⟨scope', hscope, hs⟩ := Option.bind_eq_some_iff.mp hs
    cases hs
    exact .scope hphase hscope
  all_goals cases hs

theorem rayonFault_cases {e : String} (hs : s.fault i e = some s') : ∃ call, s.calls[i]? = some call ∧
    call.phase.patches = true ∧ s' = { s.setPhase i call (.raised e) with lock := none } := by
  obtain ⟨call, hcall, hs⟩ := Option.bind_eq_some_iff.mp hs
  refine ⟨call, hcall, ?_⟩
  split at hs
  · cases hs
    exact ⟨‹_›, rfl⟩
  · cases hs

end Cases

/-! ## What calls rely on -/

/-- Calls whose modules are found once the entries they need are on the path, whatever else is
there, and whose functions are pure. No two of their paths share an id, and none has the id
that `LAST_SYS_PATH_ID` starts with. -/
structure Importable (P : PyWorld F M Fn Obj) (f : PureFunctions F) where
  allowed : Names → List String → Prop
  module : String → M
  entries : String → List String
  found : ∀ path name, (∀ p ∈ entries name, p ∈ path) → P.findModule 0 path name = .ok (module name)
  needs : ∀ names path, allowed names path → ∀ p ∈ entries names.1, p ∈ path
  pure : ∀ names path, allowed names path → ∃ func, P.getattr (module names.1) names.2 = .ok func ∧
    ∀ d val, pyCall P.toPyObjects d func val = f names d val
  exact : ∀ names path names' path', allowed names path → allowed names' path' →
    P.sysPathId path = P.sysPathId path' → path = path'
  fresh : ∀ names path, allowed names path → P.sysPathId path ≠ 2 ^ 64 - 1

/-- Only such calls are made, and no thread takes an entry off `sys.path`. -/
def Importable.Keeps {P : PyWorld F M Fn Obj} {f : PureFunctions F} (W : Importable P f)
    (s : FreeThreaded F M Fn) : RayonCallAction F → Prop
  | .execute names sysPath _ => W.allowed names sysPath
  | .edit sysPath => ∀ p ∈ s.interp.sysPath, p ∈ sysPath
  | .call _ | .scope _ _ | .fault _ _ => True

/-- The array of the sequential loop, or the exception of the first failing element of a chunk. -/
def RayonResult {d : Dtype} (f : Elem F d → Except String (Elem F d)) (input : List (Elem F d))
    (r : Except String (List (Elem F d))) : Prop :=
  (∀ ys, r = .ok ys ↔ input.mapM f = .ok ys) ∧
    ∀ msg, r = .error msg → ∃ start len e, FirstFailure f input start len e ∧ msg = rayonError e

/-- What a call has done so far. -/
def RayonCall.PhaseOk (P : PyWorld F M Fn Obj) (f : PureFunctions F) (sysPath : List String)
    (call : RayonCall F Fn) : RayonCallPhase F Fn call.dtype → Prop
  | .starting | .raised _ => True
  | .patching rest => ∀ p ∈ call.sysPath, p ∈ rest ∨ p ∈ sysPath
  | .appending q rest => ∀ p ∈ call.sysPath, p = q ∨ p ∈ rest ∨ p ∈ sysPath
  | .importing => ∀ p ∈ call.sysPath, p ∈ sysPath
  | .inScope func scope => call.input = some scope.input ∧ ScopeOk (f call.names call.dtype) scope ∧
    ∀ val, perElement P.fl P.toPyObjects call.dtype func val = f call.names call.dtype val
  | .returned r => ∃ input, call.input = some input ∧ RayonResult (f call.names call.dtype) input r

theorem RayonCall.PhaseOk.mono {P : PyWorld F M Fn Obj} {f : PureFunctions F} {path path' : List String}
    {call : RayonCall F Fn} {phase : RayonCallPhase F Fn call.dtype} (h : call.PhaseOk P f path phase)
    (hkeeps : ∀ p ∈ path, p ∈ path') : call.PhaseOk P f path' phase := by
  cases phase with
  | starting | raised => trivial
  | patching rest => exact fun p hp => (h p hp).imp_right (hkeeps p)
  | appending q rest => exact fun p hp => (h p hp).imp_right fun hrest => hrest.imp_right (hkeeps p)
  | importing => exact fun p hp => hkeeps p (h p hp)
  | inScope | returned => exact h

structure FreeThreaded.Ok {P : PyWorld F M Fn Obj} {f : PureFunctions F} (W : Importable P f)
    (s : FreeThreaded F M Fn) : Prop where
  allowed : ∀ (i : ℕ) call, s.calls[i]? = some call → W.allowed call.names call.sysPath
  phases : ∀ (i : ℕ) call, s.calls[i]? = some call → call.PhaseOk P f s.interp.sysPath call.phase
  lock : ∀ (i : ℕ) call, s.calls[i]? = some call → (call.phase.patches = true ↔ s.lock = some i)
  holder : ∀ i, s.lock = some i → i < s.calls.length
  last : ∀ names path, W.allowed names path → s.lastSysPathId = P.sysPathId path →
    ∀ p ∈ path, p ∈ s.interp.sysPath
  modules : ∀ name m, s.interp.modules.lookup name = some m → m = W.module name

section Steps
variable {P : PyWorld F M Fn Obj} {f : PureFunctions F} {W : Importable P f}
  {s s' : FreeThreaded F M Fn} {i : ℕ} {call : RayonCall F Fn} {a : RayonCallAction F}

namespace FreeThreaded

/-- A call goes on to `phase`. -/
theorem Ok.setPhase {phase : RayonCallPhase F Fn call.dtype} (h : Ok W s)
    (hcall : s.calls[i]? = some call) (hcalls : s'.calls = s.calls.set i { call with phase := phase })
    (hkeeps : ∀ p ∈ s.interp.sysPath, p ∈ s'.interp.sysPath)
    (hphase : call.PhaseOk P f s'.interp.sysPath phase)
    (hself : phase.patches = true ↔ s'.lock = some i)
    (hothers : ∀ j, j ≠ i → (s'.lock = some j ↔ s.lock = some j))
    (hlast : s'.lastSysPathId = s.lastSysPathId ∨
      s'.lastSysPathId = P.sysPathId call.sysPath ∧ ∀ p ∈ call.sysPath, p ∈ s'.interp.sysPath)
    (hmodules : ∀ name m, s'.interp.modules.lookup name = some m → m = W.module name) : Ok W s' where
  allowed j other hother := by
    rw [hcalls] at hother
    rcases getElem?_set_cases hother with hother | rfl
    · exact h.allowed j other hother
    · exact h.allowed i call hcall
  phases j other hother := by
    rw [hcalls] at hother
    rcases getElem?_set_cases hother with hother | rfl
    · exact (h.phases j other hother).mono hkeeps
    · cases phase <;> exact hphase
  lock j other hother := by
    rw [hcalls, getElem?_set_some hcall] at hother
    split at hother
    · subst i
      cases hother
      exact hself
    · rw [hothers j (Ne.symm ‹_›)]
      exact h.lock j other hother
  holder j hj := by
    rw [hcalls, List.length_set]
    by_cases hji : j = i
    · subst hji
      exact (List.getElem?_eq_some_iff.mp hcall).1
    · exact h.holder j ((hothers j hji).mp hj)
  last names path hallowed hid p hp := by
    rcases hlast with hsame | ⟨hnew, hall⟩
    · exact hkeeps p (h.last names path hallowed (hsame.symm.trans hid) p hp)
    · have hpath := W.exact _ _ _ _ hallowed (h.allowed i call hcall) (hid.symm.trans hnew)
      exact hall p (hpath ▸ hp)
  modules := hmodules

/-- With its entries on the path, a call finds its function. -/
theorem Ok.resolve (h : Ok W s) (hcall : s.calls[i]? = some call)
    (hpath : ∀ p ∈ call.sysPath, p ∈ s.interp.sysPath) {r : Except String Fn} {interp : Interp M}
    (hr : P.resolve 0 s.interp call.names = (r, interp)) :
    (∃ func, r = .ok func ∧ ∀ d val, pyCall P.toPyObjects d func val = f call.names d val) ∧
      ∀ name m, interp.modules.lookup name = some m → m = W.module name := by
  have hallowed := h.allowed i call hcall
  obtain ⟨func, hfunc, hpure⟩ := W.pure _ _ hallowed
  unfold PyWorld.resolve at hr
  split at hr
  · rename_i m hm
    cases hr
    rw [h.modules _ m hm]
    exact ⟨⟨func, hfunc, hpure⟩, h.modules⟩
  · have hfound := W.found s.interp.sysPath call.names.1
      fun p hp => hpath p (W.needs _ _ hallowed p hp)
    rw [hfound] at hr
    cases hr
    refine ⟨⟨func, hfunc, hpure⟩, fun name m hm => ?_⟩
    change ((call.names.1, W.module call.names.1) :: s.interp.modules).lookup name = some m at hm
    rw [List.lookup_cons] at hm
    split at hm
    · rename_i hname
      cases hm
      rw [beq_iff_eq.mp hname]
    · exact h.modules name m hm

theorem Ok.init (W : Importable P f) (numThreads : ℕ) (sysPath : List String) :
    Ok W (FreeThreaded.init numThreads sysPath) where
  allowed _ _ hcall := nomatch hcall
  phases _ _ hcall := nomatch hcall
  lock _ _ hcall := nomatch hcall
  holder _ hi := nomatch hi
  last names path hallowed hid := absurd hid.symm (W.fresh names path hallowed)
  modules _ _ hm := nomatch hm

/-- A call has the lock while it patches the path, and no other call has it. -/
theorem Ok.patches (h : Ok W s) (hcall : s.calls[i]? = some call) (hpatches : call.phase.patches = true)
    {j : ℕ} : s.lock = some j ↔ i = j := by
  rw [(h.lock i call hcall).mp hpatches, Option.some_inj]

/-- A call with no business at the path leaves the lock alone. -/
theorem Ok.stepOutside {phase : RayonCallPhase F Fn call.dtype} {interp : Interp M} (h : Ok W s)
    (hcall : s.calls[i]? = some call) (hold : call.phase.patches = false) (hnew : phase.patches = false)
    (hphase : call.PhaseOk P f s.interp.sysPath phase) (hpath : interp.sysPath = s.interp.sysPath)
    (hmodules : ∀ name m, interp.modules.lookup name = some m → m = W.module name) :
    Ok W { s.setPhase i call phase with interp := interp } := by
  have hfree : s.lock ≠ some i := by
    intro hlock
    rw [(h.lock i call hcall).mpr hlock] at hold
    cases hold
  apply h.setPhase hcall rfl
  · exact fun p hp => hpath ▸ hp
  · rw [hpath]
    exact hphase
  · rw [hnew]
    exact iff_of_false Bool.false_ne_true hfree
  · exact fun j _ => Iff.rfl
  · exact .inl rfl
  · exact hmodules

/-- The call with the lock keeps it. -/
theorem Ok.stepInside {phase : RayonCallPhase F Fn call.dtype} {sysPath : List String} (h : Ok W s)
    (hcall : s.calls[i]? = some call) (hold : call.phase.patches = true) (hnew : phase.patches = true)
    (hkeeps : ∀ p ∈ s.interp.sysPath, p ∈ sysPath) (hphase : call.PhaseOk P f sysPath phase) :
    Ok W { s.setPhase i call phase with interp := { s.interp with sysPath := sysPath } } := by
  apply h.setPhase hcall rfl
  · exact hkeeps
  · exact hphase
  · exact iff_of_true hnew ((h.lock i call hcall).mp hold)
  · exact fun j _ => Iff.rfl
  · exact .inl rfl
  · exact h.modules

/-- The call with the lock gives it back, and what it leaves in `LAST_SYS_PATH_ID` is true. -/
theorem Ok.unlock {phase : RayonCallPhase F Fn call.dtype} {last : ℕ} (h : Ok W s)
    (hcall : s.calls[i]? = some call) (hold : call.phase.patches = true) (hnew : phase.patches = false)
    (hphase : call.PhaseOk P f s.interp.sysPath phase)
    (hlast : last = s.lastSysPathId ∨
      last = P.sysPathId call.sysPath ∧ ∀ p ∈ call.sysPath, p ∈ s.interp.sysPath) :
    Ok W { s.setPhase i call phase with lastSysPathId := last, lock := none } := by
  apply h.setPhase hcall rfl
  · exact fun p hp => hp
  · exact hphase
  · rw [hnew]
    exact iff_of_false Bool.false_ne_true nofun
  · intro j hj
    rw [h.patches hcall hold]
    exact iff_of_false nofun (Ne.symm hj)
  · exact hlast
  · exact h.modules

theorem Ok.stepCall (hfl : P.fl.cmp .eq (minusOne P.fl .f64) (minusOne P.fl .f64) = true) (h : Ok W s)
    (hcall : s.calls[i]? = some call) (hs : RayonCallStep P s i call s') : Ok W s' := by
  have hold := h.phases i call hcall
  cases hs with
  | skip hphase hfree hid =>
    refine h.stepOutside hcall (by rw [hphase]; rfl) rfl ?_ rfl h.modules
    exact h.last _ _ (h.allowed i call hcall) hid
  | lock hphase hfree =>
    apply h.setPhase hcall rfl
    · exact fun p hp => hp
    · exact fun p hp => .inl hp
    · exact iff_of_true rfl rfl
    · intro j hj
      rw [hfree]
      exact iff_of_false (fun hi => hj (Option.some_inj.mp hi).symm) nofun
    · exact .inl rfl
    · exact h.modules
  | unlock hphase =>
    rw [hphase] at hold
    have hall : ∀ p ∈ call.sysPath, p ∈ s.interp.sysPath :=
      fun p hp => (hold p hp).resolve_left List.not_mem_nil
    exact h.unlock hcall (by rw [hphase]; rfl) rfl hall (.inr ⟨rfl, hall⟩)
  | @contained q rest hphase hq =>
    rw [hphase] at hold
    apply h.stepInside hcall (by rw [hphase]; rfl) rfl (fun p hp => hp)
    intro p hp
    rcases hold p hp with hrest | hpath
    · exact (List.mem_cons.mp hrest).elim (fun heq => .inr (heq ▸ hq)) .inl
    · exact .inr hpath
  | @notContained q rest hphase =>
    rw [hphase] at hold
    apply h.stepInside hcall (by rw [hphase]; rfl) rfl (fun p hp => hp)
    intro p hp
    rcases hold p hp with hrest | hpath
    · exact (List.mem_cons.mp hrest).imp_right .inl
    · exact .inr (.inr hpath)
  | @append q rest hphase =>
    rw [hphase] at hold
    apply h.stepInside hcall (by rw [hphase]; rfl) rfl (fun p hp => List.mem_append_left _ hp)
    intro p hp
    rcases hold p hp with rfl | hrest | hpath
    · exact .inr (List.mem_append_right _ (List.mem_singleton.mpr rfl))
    · exact .inl hrest
    · exact .inr (List.mem_append_left _ hpath)
  | importFailed hphase hresolve =>
    rw [hphase] at hold
    obtain ⟨⟨func, herror, -⟩, -⟩ := h.resolve hcall hold hresolve
    cases herror
  | wrongDtype hphase hresolve hinput =>
    rw [hphase] at hold
    obtain ⟨-, hmodules⟩ := h.resolve hcall hold hresolve
    exact h.stepOutside hcall (by rw [hphase]; rfl) rfl trivial (resolve_sysPath hresolve) hmodules
  | @imported func interp input hphase hresolve hinput =>
    rw [hphase] at hold
    obtain ⟨⟨func', hfunc, hpure⟩, hmodules⟩ := h.resolve hcall hold hresolve
    cases hfunc
    apply h.stepOutside hcall (by rw [hphase]; rfl) rfl _ (resolve_sysPath hresolve) hmodules
    refine ⟨hinput, .init _ (pickChunkSize_pos _ _) _ input, fun val => ?_⟩
    rw [perElement_eq_pyCall hfl]
    exact hpure call.dtype val
  | @scope func scope scope' a hphase hscope =>
    rw [hphase] at hold
    obtain ⟨hinput, hok, hpure⟩ := hold
    refine h.stepOutside hcall (by rw [hphase]; rfl) rfl ?_ rfl h.modules
    refine ⟨?_, hok.step hpure hscope, hpure⟩
    rw [Scope.step_input hscope]
    exact hinput
  | @joined func scope result hphase hresult =>
    rw [hphase] at hold
    obtain ⟨hinput, hok, -⟩ := hold
    refine h.stepOutside hcall (by rw [hphase]; rfl) rfl ?_ rfl h.modules
    obtain ⟨hvalue, herror⟩ := hok.result hresult
    refine ⟨scope.input, hinput, hvalue, fun msg hmsg => ?_⟩
    obtain ⟨task, -, e, hfail, he⟩ := herror msg hmsg
    exact ⟨task.start, task.len, e, hfail, he⟩

theorem begin_fields (Fn : Type) (names : Names) (sysPath : List String) (array : ArrowArray F) :
    let call : RayonCall F Fn := .begin names sysPath array
    call.names = names ∧ call.sysPath = sysPath ∧ call.phase = .starting := by
  cases array <;> exact ⟨rfl, rfl, rfl⟩

theorem Ok.execute {names : Names} {sysPath : List String} {array : ArrowArray F} (h : Ok W s)
    (hallowed : W.allowed names sysPath) :
    Ok W { s with calls := s.calls ++ [RayonCall.begin names sysPath array] } := by
  obtain ⟨hnames, hpath, hphase⟩ := begin_fields Fn names sysPath array
  refine ⟨fun j other hother => ?_, fun j other hother => ?_, fun j other hother => ?_, fun j hj => ?_,
    h.last, h.modules⟩
  · rcases getElem?_concat_cases hother with hother | rfl
    · exact h.allowed j other hother
    · rw [hnames, hpath]
      exact hallowed
  · rcases getElem?_concat_cases hother with hother | rfl
    · exact h.phases j other hother
    · rw [hphase]
      trivial
  · rcases getElem?_concat_some hother with hother | ⟨rfl, rfl⟩
    · exact h.lock j other hother
    · rw [hphase]
      exact iff_of_false Bool.false_ne_true fun hlock => Nat.lt_irrefl _ (h.holder _ hlock)
  · rw [List.length_append]
    exact Nat.lt_add_right _ (h.holder j hj)

theorem Ok.step (hfl : P.fl.cmp .eq (minusOne P.fl .f64) (minusOne P.fl .f64) = true) (h : Ok W s)
    (hkeeps : W.Keeps s a) (hs : P.rayonStep s a = some s') : Ok W s' := by
  cases a with
  | execute names sysPath array =>
    cases hs
    exact h.execute hkeeps
  | call i =>
    obtain ⟨call, hcall, hstep⟩ := rayonCall_cases hs
    exact h.stepCall hfl hcall hstep
  | scope i b =>
    obtain ⟨call, hcall, hstep⟩ := rayonScope_cases hs
    exact h.stepCall hfl hcall hstep
  | fault i e =>
    obtain ⟨call, hcall, hpatches, rfl⟩ := rayonFault_cases hs
    exact h.unlock hcall hpatches rfl trivial (.inl rfl)
  | edit sysPath =>
    cases hs
    exact ⟨h.allowed, fun j other hother => (h.phases j other hother).mono hkeeps, h.lock, h.holder,
      fun names path hallowed hid p hp => hkeeps p (h.last names path hallowed hid p hp), h.modules⟩

end FreeThreaded

/-! ## How far a call has come -/

/-- A bound on the steps that a call takes in its scope. -/
def RayonCall.scopeWork (fl : FloatOps F) (numThreads : ℕ) (call : RayonCall F Fn) : ℕ :=
  call.input.elim 0 fun input => (openScope fl numThreads input).work

/-- A bound on the steps that a call still takes from `phase` on. -/
def RayonCall.workFrom (fl : FloatOps F) (numThreads : ℕ) (call : RayonCall F Fn) :
    RayonCallPhase F Fn call.dtype → ℕ
  | .starting => 2 * call.sysPath.length + 4 + call.scopeWork fl numThreads
  | .patching rest => 2 * rest.length + 3 + call.scopeWork fl numThreads
  | .appending _ rest => 2 * rest.length + 4 + call.scopeWork fl numThreads
  | .importing => 2 + call.scopeWork fl numThreads
  | .inScope _ scope => scope.work + 1
  | .returned _ | .raised _ => 0

/-- What one step of the call `i` changes about the calls. -/
structure RayonMove (P : PyWorld F M Fn Obj) (s : FreeThreaded F M Fn) (i : ℕ) (call : RayonCall F Fn)
    (s' : FreeThreaded F M Fn) (phase : RayonCallPhase F Fn call.dtype) : Prop where
  calls : s'.calls = s.calls.set i { call with phase := phase }
  threads : s'.numThreads = s.numThreads
  work : call.workFrom P.fl s.numThreads phase < call.workFrom P.fl s.numThreads call.phase
  raised : ∀ e, phase = .raised e → call.input = none ∧ e = dtypeError

namespace FreeThreaded

theorem Ok.move (h : Ok W s) (hcall : s.calls[i]? = some call) (hs : RayonCallStep P s i call s') :
    ∃ phase, RayonMove P s i call s' phase := by
  have hold := h.phases i call hcall
  cases hs with
  | skip hphase | unlock hphase | contained hphase | notContained hphase | append hphase =>
    refine ⟨_, rfl, rfl, ?_, nofun⟩
    rw [hphase]
    simp only [RayonCall.workFrom, List.length_cons]
    omega
  | lock hphase =>
    refine ⟨_, rfl, rfl, ?_, nofun⟩
    rw [hphase]
    simp only [RayonCall.workFrom]
    omega
  | importFailed hphase hresolve =>
    rw [hphase] at hold
    obtain ⟨⟨func, herror, -⟩, -⟩ := h.resolve hcall hold hresolve
    cases herror
  | wrongDtype hphase hresolve hinput =>
    refine ⟨_, rfl, rfl, ?_, ?_⟩
    · rw [hphase]
      simp only [RayonCall.workFrom]
      omega
    · intro e he
      cases he
      exact ⟨hinput, rfl⟩
  | imported hphase hresolve hinput =>
    refine ⟨_, rfl, rfl, ?_, nofun⟩
    rw [hphase]
    simp only [RayonCall.workFrom, RayonCall.scopeWork, hinput, Option.elim_some]
    omega
  | scope hphase hscope =>
    refine ⟨_, rfl, rfl, ?_, nofun⟩
    rw [hphase]
    exact Nat.add_lt_add_right (Scope.work_lt hscope) 1
  | joined hphase hresult =>
    refine ⟨_, rfl, rfl, ?_, nofun⟩
    rw [hphase]
    exact Nat.succ_pos _

/-- A call that has not ended can go on, unless it waits for the lock. -/
theorem Ok.advances (h : Ok W s) (hcall : s.calls[i]? = some call) (hends : call.phase.ended = false)
    (hfree : call.phase = .starting → s.lock = none) :
    ∃ a s', a.isOwn i = true ∧ P.rayonStep s a = some s' := by
  cases hstep : s.stepCall P i with
  | some s' => exact ⟨.call i, s', beq_self_eq_true i, hstep⟩
  | none =>
    have hold := h.phases i call hcall
    simp only [FreeThreaded.stepCall, hcall, bind, Option.bind_some] at hstep
    split at hstep
    · rename_i hphase
      simp only [hfree hphase, Option.isSome_none, Bool.false_eq_true, if_false] at hstep
      split at hstep <;> cases hstep
    · cases hstep
    · cases hstep
    · cases hstep
    · split at hstep
      · cases hstep
      · split at hstep <;> cases hstep
    · rename_i func scope hphase
      rw [hphase] at hold
      have hruns : scope.result = none := by
        cases hresult : scope.result with
        | none => rfl
        | some result =>
          rw [hresult] at hstep
          cases hstep
      obtain ⟨a, scope', hscope⟩ : ∃ a scope', scope.step P.fl P.toPyObjects func a = some scope' :=
        hold.2.1.exists_step hruns
      refine ⟨.scope i a, s.setPhase i call (.inScope func scope'), beq_self_eq_true i, ?_⟩
      simp only [PyWorld.rayonStep, stepScope, hcall, hphase, hscope, bind, Option.bind_some]
    · rename_i hphase
      rw [hphase] at hends
      cases hends
    · rename_i hphase
      rw [hphase] at hends
      cases hends

/-- A call that waits for the lock waits for one that can go on. -/
theorem Ok.moves (h : Ok W s) (hcall : s.calls[i]? = some call) (hends : call.phase.ended = false) :
    ∃ j, (j = i ∨ s.lock = some j) ∧ ∃ a s', a.isOwn j = true ∧ P.rayonStep s a = some s' := by
  cases hlock : s.lock with
  | none => exact ⟨i, .inl rfl, h.advances hcall hends fun _ => hlock⟩
  | some j =>
    have hlt := h.holder j hlock
    have hholder := (h.lock j _ (List.getElem?_eq_getElem hlt)).mpr hlock
    refine ⟨j, .inr rfl, h.advances (List.getElem?_eq_getElem hlt) ?_ ?_⟩
    · cases hphase : s.calls[j].phase with
      | patching | appending | starting | importing | inScope => rfl
      | returned | raised =>
        rw [hphase] at hholder
        cases hholder
    · intro hphase
      rw [hphase] at hholder
      cases hholder

end FreeThreaded

/-- What the actions so far say about the calls. -/
structure RayonTracked (P : PyWorld F M Fn Obj) (n : ℕ) (as : List (RayonCallAction F))
    (s : FreeThreaded F M Fn) : Prop where
  threads : s.numThreads = n
  work : ∀ (i : ℕ) call, s.calls[i]? = some call →
    as.countP (·.isOwn i) + call.workFrom P.fl n call.phase ≤ call.workFrom P.fl n .starting
  raised : ∀ (i : ℕ) call, s.calls[i]? = some call → ∀ e, call.phase = .raised e →
    .fault i e ∈ as ∨ call.input = none ∧ e = dtypeError
  fresh : ∀ i, s.calls.length ≤ i → as.countP (·.isOwn i) = 0

namespace RayonTracked
variable {n : ℕ} {as : List (RayonCallAction F)}

theorem init (P : PyWorld F M Fn Obj) (n : ℕ) (sysPath : List String) :
    RayonTracked P n [] (.init n sysPath : FreeThreaded F M Fn) :=
  ⟨rfl, nofun, nofun, fun _ _ => rfl⟩

theorem countP_snoc (i : ℕ) : (as ++ [a]).countP (·.isOwn i) =
    as.countP (·.isOwn i) + if a.isOwn i = true then 1 else 0 := by
  rw [List.countP_append, List.countP_singleton]

theorem setPhase {phase : RayonCallPhase F Fn call.dtype} (h : RayonTracked P n as s)
    (hcall : s.calls[i]? = some call) (hcalls : s'.calls = s.calls.set i { call with phase := phase })
    (hthreads : s'.numThreads = s.numThreads) (hothers : ∀ j, i ≠ j → a.isOwn j = false)
    (hwork : call.workFrom P.fl n phase + (if a.isOwn i = true then 1 else 0) ≤
      call.workFrom P.fl n call.phase)
    (hraised : ∀ e, phase = .raised e → a = .fault i e ∨ call.input = none ∧ e = dtypeError) :
    RayonTracked P n (as ++ [a]) s' := by
  have hi := (List.getElem?_eq_some_iff.mp hcall).1
  refine ⟨hthreads.trans h.threads, fun j other hother => ?_, fun j other hother e he => ?_,
    fun j hj => ?_⟩
  · rw [hcalls, getElem?_set_some hcall] at hother
    rw [countP_snoc]
    split at hother
    · subst i
      cases hother
      have hstart := h.work j call hcall
      have hphase : RayonCall.workFrom P.fl n { call with phase := phase } phase =
          call.workFrom P.fl n phase := by cases phase <;> rfl
      rw [hphase]
      change _ ≤ call.workFrom P.fl n .starting
      omega
    · rw [hothers j ‹_›]
      exact h.work j other hother
  · rw [hcalls, getElem?_set_some hcall] at hother
    rw [List.mem_append, List.mem_singleton]
    split at hother
    · subst i
      cases hother
      rcases hraised e he with rfl | hdtype
      · exact .inl (.inr rfl)
      · exact .inr hdtype
    · exact (h.raised j other hother e he).imp_left .inl
  · rw [hcalls, List.length_set] at hj
    rw [countP_snoc, h.fresh j hj, hothers j (by omega)]
    rfl

theorem move {phase : RayonCallPhase F Fn call.dtype} (h : RayonTracked P n as s)
    (hcall : s.calls[i]? = some call) (hmove : RayonMove P s i call s' phase)
    (ha : ∀ j, a.isOwn j = (j == i)) : RayonTracked P n (as ++ [a]) s' := by
  have hwork := hmove.work
  rw [h.threads] at hwork
  refine h.setPhase hcall hmove.calls hmove.threads (fun j hj => ?_) ?_ fun e he => ?_
  · rw [ha]
    exact beq_eq_false_iff_ne.mpr (Ne.symm hj)
  · rw [if_pos ((ha i).trans (beq_self_eq_true i))]
    exact hwork
  · exact .inr (hmove.raised e he)

theorem same (h : RayonTracked P n as s) (ha : ∀ i, a.isOwn i = false)
    (hcalls : s'.calls = s.calls) (hthreads : s'.numThreads = s.numThreads) :
    RayonTracked P n (as ++ [a]) s' := by
  have hcount : ∀ i, (as ++ [a]).countP (·.isOwn i) = as.countP (·.isOwn i) := by
    intro i
    rw [countP_snoc, ha]
    rfl
  refine ⟨hthreads.trans h.threads, ?_, ?_, ?_⟩
  · intro i other hother
    rw [hcount]
    exact h.work i other (hcalls ▸ hother)
  · intro i other hother e he
    exact (h.raised i other (hcalls ▸ hother) e he).imp_left (List.mem_append_left _)
  · intro i hi
    rw [hcount]
    exact h.fresh i (hcalls ▸ hi)

theorem execute {names : Names} {sysPath : List String} {array : ArrowArray F}
    (h : RayonTracked P n as s) :
    RayonTracked P n as { s with calls := s.calls ++ [RayonCall.begin names sysPath array] } := by
  obtain ⟨-, -, hphase⟩ := FreeThreaded.begin_fields Fn names sysPath array
  refine ⟨h.threads, fun i other hother => ?_, fun i other hother e he => ?_, fun i hi => ?_⟩
  · rcases getElem?_concat_some hother with hother | ⟨rfl, rfl⟩
    · exact h.work i other hother
    · rw [h.fresh _ le_rfl, hphase, Nat.zero_add]
  · rcases getElem?_concat_some hother with hother | ⟨rfl, rfl⟩
    · exact h.raised i other hother e he
    · rw [hphase] at he
      cases he
  · rw [List.length_append] at hi
    exact h.fresh i (Nat.le_of_add_right_le hi)

theorem step (hok : s.Ok W) (h : RayonTracked P n as s) (hs : P.rayonStep s a = some s') :
    RayonTracked P n (as ++ [a]) s' := by
  cases a with
  | execute names sysPath array =>
    cases hs
    exact h.execute.same (fun _ => rfl) rfl rfl
  | call i =>
    obtain ⟨call, hcall, hstep⟩ := rayonCall_cases hs
    obtain ⟨phase, hmove⟩ := hok.move hcall hstep
    exact h.move hcall hmove fun _ => rfl
  | scope i b =>
    obtain ⟨call, hcall, hstep⟩ := rayonScope_cases hs
    obtain ⟨phase, hmove⟩ := hok.move hcall hstep
    exact h.move hcall hmove fun _ => rfl
  | fault i e =>
    obtain ⟨call, hcall, hpatches, rfl⟩ := rayonFault_cases hs
    refine h.setPhase hcall rfl rfl (fun j _ => rfl) (Nat.zero_le _) fun e' he => ?_
    cases he
    exact .inl rfl
  | edit sysPath =>
    cases hs
    exact h.same (fun _ => rfl) rfl rfl

end RayonTracked

/-- **Calls on the free-threaded build.** Let calls of importable functions run beside each other
and beside edits of `sys.path`. A call that returns gives the array of the sequential loop, or the
exception of the first failing element of one of its chunks; an exception of its own comes from a
fault under the lock or from its array's type; it takes a bounded number of steps, and until it
has ended either it or the call that has the lock can go on. Pauses of the interpreter, which a
thread that waits for the lock while attached to it can hold up, are left aside. -/
theorem rayon_calls_exact (hfl : P.fl.cmp .eq (minusOne P.fl .f64) (minusOne P.fl .f64) = true)
    (W : Importable P f) {n : ℕ} {sysPath : List String} {as : List (RayonCallAction F)}
    (hrun : Run P.rayonStep W.Keeps (FreeThreaded.init n sysPath) as s)
    (hcall : s.calls[i]? = some call) :
    (∀ r, call.phase = .returned r → ∃ input, call.input = some input ∧
      RayonResult (f call.names call.dtype) input r) ∧
    (∀ e, call.phase = .raised e → .fault i e ∈ as ∨ call.input = none ∧ e = dtypeError) ∧
    as.countP (·.isOwn i) ≤ 2 * call.sysPath.length + 4 + call.scopeWork P.fl n ∧
    (call.phase.ended = false →
      ∃ j, (j = i ∨ s.lock = some j) ∧ ∃ a s', a.isOwn j = true ∧ P.rayonStep s a = some s') := by
  obtain ⟨hok, htracked⟩ : s.Ok W ∧ RayonTracked P n as s := by
    refine hrun.induction (I := fun as s => s.Ok W ∧ RayonTracked P n as s)
      ⟨.init W n sysPath, .init P n sysPath⟩ ?_
    rintro as s s' a - ⟨hok, htracked⟩ hkeeps hs
    exact ⟨hok.step hfl hkeeps hs, htracked.step hok hs⟩
  refine ⟨fun r hr => ?_, htracked.raised i call hcall, ?_, hok.moves hcall⟩
  · have hphase := hok.phases i call hcall
    rw [hr] at hphase
    exact hphase
  · exact (Nat.le_add_right _ _).trans (htracked.work i call hcall)

end Steps

/-! ## A run -/

/-- Modules are found with `lib` on the path. -/
abbrev libWorld : PyWorld (BitVec 64) String Names (BitVec 64) :=
  { bitWorld with findModule := fun _ path name =>
      if "lib" ∈ path then .ok name else .error "ModuleNotFoundError" }

abbrev libImports : Importable libWorld demoFunctions where
  allowed names path := names = ("tasks", "inc") ∧ path = ["lib"]
  module name := name
  entries _ := ["lib"]
  found path name h := if_pos (h "lib" (List.mem_singleton.mpr rfl))
  needs names path h p hp := by rwa [h.2]
  pure names path h := ⟨names, rfl, fun d val => rfl⟩
  exact names path names' path' h h' _ := h.2.trans h'.2.symm
  fresh names path h := by
    rw [h.2]
    decide

instance (s : FreeThreaded (BitVec 64) String Names) :
    (a : RayonCallAction (BitVec 64)) → Decidable (libImports.Keeps s a)
  | .execute names sysPath _ => inferInstanceAs (Decidable (names = ("tasks", "inc") ∧ sysPath = ["lib"]))
  | .edit sysPath => inferInstanceAs (Decidable (∀ p ∈ s.interp.sysPath, p ∈ sysPath))
  | .call _ | .scope _ _ | .fault _ _ => .isTrue trivial

def incCall (array : ArrowArray (BitVec 64)) : RayonCallAction (BitVec 64) :=
  .execute ("tasks", "inc") ["lib"] array

/-- The path is edited while the first call patches it; the second call finds it patched. -/
def twoRayonCalls : List (RayonCallAction (BitVec 64)) :=
  [incCall (.int64 [3]), incCall (.int64 [4]), .call 0, .edit ["site"], .call 0, .call 0, .call 0,
    .call 1, .call 1, .call 0, .scope 1 .spawn, .scope 0 .spawn, .scope 1 (.task 0), .scope 1 (.task 0),
    .scope 0 (.task 0), .scope 0 (.task 0), .scope 0 (.task 0), .scope 1 (.task 0), .call 0, .call 1]

theorem rayon_calls_exact_race : ∃ s : FreeThreaded (BitVec 64) String Names,
    Run libWorld.rayonStep libImports.Keeps (.init 2 []) twoRayonCalls s ∧
    ∃ call, s.calls[1]? = some call ∧ ∃ r, call.phase = .returned r ∧ ∃ input, call.input = some input ∧
      RayonResult (demoFunctions call.names call.dtype) input r := by
  obtain ⟨s, hs, call, hcall, r, hret⟩ : ∃ s : FreeThreaded (BitVec 64) String Names,
      Run libWorld.rayonStep libImports.Keeps (.init 2 []) twoRayonCalls s ∧
      ∃ call, s.calls[1]? = some call ∧ ∃ r, call.phase = .returned r :=
    ⟨_, run_of_exec rfl, _, rfl, _, rfl⟩
  obtain ⟨hresult, -⟩ := rayon_calls_exact (beq_self_eq_true _) libImports hs hcall
  exact ⟨s, hs, call, hcall, r, hret, hresult r hret⟩

end Gilmap
