import Gilmap.Pool.Steps

/-! # Which function a task is evaluated with

A worker keeps the functions it has resolved by their names, and next to them the bare
address of the last call's context. The names identify a function as long as modules stay
loaded; the address only identifies the call while its context is alive.
-/
namespace Gilmap
open Library
variable {F M Fn Obj : Type}

/-! ## Resolution in one interpreter -/

/-- The function that the names denote among the modules already loaded. -/
def PyWorld.loaded (P : PyWorld F M Fn Obj) (interp : Interp M) (names : Names) : Option Fn :=
  (interp.modules.lookup names.1).bind fun m => (P.getattr m names.2).toOption

section Resolution
variable {P : PyWorld F M Fn Obj} {w : ℕ} {interp interp' : Interp M} {names names' : Names}
  {func func' : Fn}

theorem toOption_eq_some {ε α : Type} {x : Except ε α} {a : α} (h : x.toOption = some a) : x = .ok a := by
  cases x with
  | error e => cases h
  | ok b =>
    cases h
    rfl

theorem resolve_of_loaded (h : P.loaded interp names = some func) :
    P.resolve w interp names = (.ok func, interp) := by
  obtain ⟨m, hm, hattr⟩ := Option.bind_eq_some_iff.mp h
  simp only [PyWorld.resolve, hm, toOption_eq_some hattr]

/-- Resolving names keeps what is loaded. -/
theorem resolve_keeps {r : Except String Fn} (h : P.resolve w interp names = (r, interp'))
    (hl : P.loaded interp names' = some func') : P.loaded interp' names' = some func' := by
  unfold PyWorld.resolve at h
  split at h
  · cases h
    exact hl
  · rename_i hnone
    split at h
    · cases h
      exact hl
    · cases h
      obtain ⟨m, hm, hattr⟩ := Option.bind_eq_some_iff.mp hl
      have hne : names'.1 ≠ names.1 := by
        intro he
        rw [he, hnone] at hm
        cases hm
      simp only [PyWorld.loaded, List.lookup_cons, beq_false_of_ne hne, hm, Option.bind_some, hattr]

theorem loaded_of_resolve (h : P.resolve w interp names = (.ok func, interp')) :
    P.loaded interp' names = some func := by
  unfold PyWorld.resolve at h
  split at h
  · rename_i m hm
    obtain ⟨hattr, rfl⟩ := Prod.mk.inj h
    simp only [PyWorld.loaded, hm, Option.bind_some, hattr]
    rfl
  · split at h
    · cases h
    · obtain ⟨hattr, rfl⟩ := Prod.mk.inj h
      simp only [PyWorld.loaded, List.lookup_cons, beq_self_eq_true, Option.bind_some, hattr]
      rfl

end Resolution

/-! ## The worker's cache -/

/-- Everything a worker has cached is loaded under the names it was cached for. -/
structure CacheSound (P : PyWorld F M Fn Obj) (k : WorkerCache M Fn) : Prop where
  cached : ∀ p ∈ k.funcCache, P.loaded k.interp p.1 = some p.2
  last : ∀ func, k.lastFunc = some func →
    ∃ names, k.lastNames = some names ∧ P.loaded k.interp names = some func

section Cache
variable {P : PyWorld F M Fn Obj} {w ctxPtr : ℕ} {fault : Option (ℕ × String)} {ctx : CallContext}
  {k k' : WorkerCache M Fn} {func : Fn} {names : Names}

theorem CacheSound.init (sysPath : List String) : CacheSound P (.init sysPath) :=
  ⟨fun _ hp => (List.not_mem_nil hp).elim, fun _ h => nomatch h⟩

/-- Caches that agree on functions and modules. -/
structure WorkerCache.SameFunctions (k k' : WorkerCache M Fn) : Prop where
  modules : k'.interp.modules = k.interp.modules
  funcCache : k'.funcCache = k.funcCache
  lastFunc : k'.lastFunc = k.lastFunc
  lastNames : k'.lastNames = k.lastNames

theorem appendPaths_same {r : Except String Unit} {paths : List String}
    (h : k.appendPaths fault paths = (r, k')) : k.SameFunctions k' := by
  induction paths generalizing fault k with
  | nil =>
    cases h
    exact ⟨rfl, rfl, rfl, rfl⟩
  | cons p ps ih =>
    simp only [WorkerCache.appendPaths] at h
    split at h
    · exact ih h
    · split at h
      · cases h
        exact ⟨rfl, rfl, rfl, rfl⟩
      · have hsame := ih h
        refine ⟨hsame.modules.trans ?_, hsame.funcCache, hsame.lastFunc, hsame.lastNames⟩
        dsimp only
        split <;> rfl

theorem patchPath_same {r : Except String Unit} (h : k.patchPath fault ctx = (r, k')) :
    k.SameFunctions k' := by
  unfold WorkerCache.patchPath at h
  split at h
  · cases h
    exact ⟨rfl, rfl, rfl, rfl⟩
  · split at h
    · cases h
      exact appendPaths_same ‹_›
    · rename_i hpaths
      cases h
      obtain ⟨h₁, h₂, h₃, h₄⟩ := appendPaths_same hpaths
      exact ⟨h₁, h₂, h₃, h₄⟩

theorem WorkerCache.SameFunctions.loaded (h : k.SameFunctions k') :
    P.loaded k'.interp names = P.loaded k.interp names := by
  simp only [PyWorld.loaded, h.modules]

theorem CacheSound.of_same (hk : CacheSound P k) (h : k.SameFunctions k') : CacheSound P k' := by
  refine ⟨fun p hp => ?_, fun func hf => ?_⟩
  · rw [h.loaded]
    exact hk.cached p (h.funcCache ▸ hp)
  · obtain ⟨names, hnames, hl⟩ := hk.last func (h.lastFunc ▸ hf)
    exact ⟨names, h.lastNames.trans hnames, h.loaded.trans hl⟩

theorem CacheSound.remember (hk : CacheSound P k) (hl : P.loaded k.interp ctx.names = some func) :
    CacheSound P (k.remember ctx ctxPtr func) :=
  ⟨hk.cached, fun _ hf => ⟨ctx.names, rfl, hf ▸ hl⟩⟩

/-- A lookup keeps the cache sound; what it returns is the cached function of the address or
the function that the call's names denote. -/
theorem lookup_sound (hk : CacheSound P k) {r : Except String Fn}
    (h : P.lookup w fault ctx ctxPtr k = (r, k')) : CacheSound P k' ∧
      ∀ func, r = .ok func → (k.shortcut ctxPtr = some func ∧ k' = k) ∨
        P.loaded k'.interp ctx.names = some func := by
  unfold PyWorld.lookup at h
  split at h
  · rename_i f hs
    cases h
    exact ⟨hk, fun func hf => .inl ⟨by cases hf; exact hs, rfl⟩⟩
  · split at h
    · rename_i f hf
      cases h
      have hl := hk.cached _ (mem_of_lookup hf)
      exact ⟨hk.remember hl, fun func hf => .inr (by cases hf; exact hl)⟩
    · split at h
      · rename_i hpatch
        cases h
        exact ⟨hk.of_same (patchPath_same hpatch), fun _ hf => nomatch hf⟩
      · rename_i k₁ hpatch
        have hk₁ := hk.of_same (patchPath_same hpatch)
        split at h
        · rename_i interp hres
          cases h
          refine ⟨⟨fun p hp => resolve_keeps hres (hk₁.cached p hp), fun f hf => ?_⟩,
            fun _ hf => nomatch hf⟩
          obtain ⟨names, hnames, hl⟩ := hk₁.last f hf
          exact ⟨names, hnames, resolve_keeps hres hl⟩
        · rename_i func interp hres
          cases h
          have hl := loaded_of_resolve hres
          refine ⟨⟨fun p hp => ?_, fun f hf => ⟨ctx.names, rfl, by cases hf; exact hl⟩⟩,
            fun f hf => .inr (by cases hf; exact hl)⟩
          rcases List.mem_cons.mp hp with rfl | hp
          · exact hl
          · exact resolve_keeps hres (hk₁.cached p hp)

end Cache

/-! ## Runs of the pool -/

/-- Every worker that runs a task runs the function that its interpreter resolves from the
names of the task's own context. -/
def EvaluatesOwn (P : PyWorld F M Fn Obj) (s : Pool F M Fn) : Prop :=
  ∀ (w : ℕ) (wk : Worker M Fn) t func next, s.workers[w]? = some wk →
    wk.phase = .running t func next → ∃ call, s.calls[t.call]? = some call ∧
      (P.resolve w wk.cache.interp call.ctx.names).1 = .ok func

/-- When the address of a task's context is the last one the worker has seen, the names it
was seen with resolve to the same function as the task's. -/
def ShortcutSafe (P : PyWorld F M Fn Obj) (s : Pool F M Fn) : PoolAction F → Prop
  | .worker w _ => ∀ (wk : Worker M Fn) t call func names, s.workers[w]? = some wk →
    wk.phase = .resolving t → s.calls[t.call]? = some call → wk.cache.shortcut call.addr = some func →
    wk.cache.lastNames = some names →
    (P.resolve w wk.cache.interp call.ctx.names).1 = (P.resolve w wk.cache.interp names).1
  | .execute _ _ _ _ | .call _ | .shutdownWorkers | .shutdown _ | .crash _ => True

section Runs
variable {P : PyWorld F M Fn Obj} {s s' : Pool F M Fn} {a : PoolAction F}

theorem Pool.mem_init {sysPath : List String} {starts : List Bool} {wk : Worker M Fn} {w : ℕ}
    (h : (Pool.init sysPath starts : Pool F M Fn).workers[w]? = some wk) :
    ∃ ok, wk = ⟨ok, .starting, .init sysPath⟩ := by
  obtain ⟨ok, -, rfl⟩ := List.mem_map.mp (List.mem_of_getElem? h)
  exact ⟨ok, rfl⟩

/-- The new cache of the worker that takes a step. -/
inductive CacheStep (P : PyWorld F M Fn Obj) (w : ℕ) (k : WorkerCache M Fn) : WorkerCache M Fn → Prop
  | same : CacheStep P w k k
  | cleared : CacheStep P w k { k with funcCache := [] }
  | lookup {fault : Option (ℕ × String)} {ctx : CallContext} {ctxPtr : ℕ} {r : Except String Fn}
      {k' : WorkerCache M Fn} : P.lookup w fault ctx ctxPtr k = (r, k') → CacheStep P w k k'

theorem worker_cacheStep {w : ℕ} {fault : Option (ℕ × String)} {wk wk' : Worker M Fn}
    (h : WorkerStep P s w fault wk s') (hwk : s.workers[w]? = some wk)
    (hwk' : s'.workers[w]? = some wk') : CacheStep P w wk.cache wk'.cache := by
  cases h with
  | resolved _ _ hl | resolveFailed _ _ hl =>
    cases getElem?_set_self_some hwk hwk'
    exact .lookup hl
  | recvShutdown =>
    cases getElem?_set_self_some hwk hwk'
    exact .cleared
  | startFailed | exit =>
    rw [Pool.exit_workers] at hwk'
    cases getElem?_set_self_some hwk hwk'
    exact .same
  | started | recvTask | element | elementFailed | elementsDone | finish | release =>
    cases getElem?_set_self_some hwk hwk'
    exact .same

theorem CacheStep.sound {w : ℕ} {k k' : WorkerCache M Fn} (h : CacheStep P w k k')
    (hk : CacheSound P k) : CacheSound P k' := by
  cases h with
  | same => exact hk
  | cleared => exact ⟨fun _ hp => (List.not_mem_nil hp).elim, hk.last⟩
  | lookup hl => exact (lookup_sound hk hl).1

def CachesSound (P : PyWorld F M Fn Obj) (s : Pool F M Fn) : Prop :=
  ∀ (w : ℕ) (wk : Worker M Fn), s.workers[w]? = some wk → CacheSound P wk.cache

/-- The caches stay sound, whatever the allocator does. -/
theorem CachesSound.step (h : CachesSound P s) (hs : P.step s a = some s') : CachesSound P s' := by
  intro w wk' hwk'
  by_cases ha : a.worker? = some w
  · cases a with
    | worker w' fault =>
      cases ha
      obtain ⟨wk, hwk, hstep⟩ := stepWorker_cases hs
      exact (worker_cacheStep hstep hwk hwk').sound (h w wk hwk)
    | crash w' =>
      cases ha
      obtain ⟨wk, hwk, rfl⟩ := crash_cases hs
      rw [Pool.exit_workers] at hwk'
      cases getElem?_set_self_some hwk hwk'
      exact h w wk hwk
    | execute | call | shutdownWorkers | shutdown => cases ha
  · rw [step_others hs ha] at hwk'
    exact h w wk' hwk'

theorem cachesSound_of_reachable {sysPath : List String} {starts : List Bool}
    (h : Reachable P.step (Pool.init sysPath starts) s) : CachesSound P s := by
  refine h.invariant (I := CachesSound P) (fun w wk hwk => ?_) fun hI hs => hI.step hs
  obtain ⟨ok, rfl⟩ := Pool.mem_init hwk
  exact .init sysPath

/-- A worker that goes on running keeps its function. -/
theorem EvaluatesOwn.kept (h : EvaluatesOwn P s) (hs : P.step s a = some s') {w : ℕ}
    {wk wk' : Worker M Fn} {t : Task} {func : Fn} {next : ℕ} (hwk : s.workers[w]? = some wk)
    (hphase : wk.phase = .running t func next) (hcache : wk'.cache = wk.cache) :
    ∃ call, s'.calls[t.call]? = some call ∧
      (P.resolve w wk'.cache.interp call.ctx.names).1 = .ok func := by
  obtain ⟨call, hcall, hl⟩ := h w wk t func next hwk hphase
  obtain ⟨call', hcall', hlater⟩ := step_calls hs hcall
  exact ⟨call', hcall', by rw [hcache, hlater.1.ctx, hl]⟩

/-- A pointer hit returns what the names it was recorded for resolve to. -/
theorem CacheSound.shortcut {w ctxPtr : ℕ} {k : WorkerCache M Fn} {func : Fn} (hk : CacheSound P k)
    (h : k.shortcut ctxPtr = some func) :
    ∃ names, k.lastNames = some names ∧ (P.resolve w k.interp names).1 = .ok func := by
  unfold WorkerCache.shortcut at h
  split at h
  · obtain ⟨names, hnames, hl⟩ := hk.last func h
    exact ⟨names, hnames, congrArg Prod.fst (resolve_of_loaded hl)⟩
  · cases h

theorem EvaluatesOwn.step (h : EvaluatesOwn P s) (hcaches : CachesSound P s) (hsafe : ShortcutSafe P s a)
    (hs : P.step s a = some s') : EvaluatesOwn P s' := by
  intro w wk' t func next hwk' hphase'
  cases running_of_step hs hwk' hphase' with
  | @resolved fault wk call ha hwk hphase hcall hl hcalls =>
    subst ha
    refine ⟨call, hcalls ▸ hcall, ?_⟩
    have hk := hcaches w wk hwk
    rcases (lookup_sound hk hl).2 _ rfl with ⟨hshort, hcache⟩ | hloaded
    · obtain ⟨names, hnames, hresolve⟩ := hk.shortcut (w := w) hshort
      rw [hcache]
      exact (hsafe wk t _ func names hwk hphase hcall hshort hnames).trans hresolve
    · exact congrArg Prod.fst (resolve_of_loaded hloaded)
  | running hwk hphase hcache => exact h.kept hs hwk hphase hcache

/-- A pointer hit that is not safe makes the worker run another function. -/
theorem shortcutSafe_of_evaluatesOwn (hcaches : CachesSound P s) (hs : P.step s a = some s')
    (h : EvaluatesOwn P s') : ShortcutSafe P s a := by
  cases a with
  | worker w fault =>
    intro wk t call func names hwk hphase hcall hshort hnames
    have hk := hcaches w wk hwk
    obtain ⟨names', hnames', hresolve⟩ := hk.shortcut (w := w) hshort
    rw [hnames] at hnames'
    cases hnames'
    have hlookup : P.lookup w fault call.ctx call.addr wk.cache = (.ok func, wk.cache) := by
      simp only [PyWorld.lookup, hshort]
    have hs' : s' = s.setWorker w { wk with phase := .running t func 0 } := by
      simp only [PyWorld.step, Pool.stepWorker, hwk, hphase, hcall, hlookup, bind, Option.bind_some,
        Option.some.injEq] at hs
      exact hs.symm
    have hwk' : s'.workers[w]? = some { wk with phase := .running t func 0 } := by
      rw [hs', Pool.setWorker_workers, getElem?_set_some hwk, if_pos rfl]
    obtain ⟨call', hcall', hown⟩ := h w _ t func 0 hwk' rfl
    rw [hs', Pool.setWorker_calls, hcall] at hcall'
    cases hcall'
    exact hown.trans hresolve.symm
  | execute | call | shutdownWorkers | shutdown | crash => trivial

/-- **Tasks run their own function** in a run whose pointer hits are safe, and a further step
keeps this up only if it is safe as well. -/
theorem tasks_evaluate_own {sysPath : List String} {starts : List Bool} {as : List (PoolAction F)}
    (h : Run P.step (ShortcutSafe P) (Pool.init sysPath starts) as s) : EvaluatesOwn P s ∧
      ∀ a s', P.step s a = some s' → (EvaluatesOwn P s' ↔ ShortcutSafe P s a) := by
  have hboth : CachesSound P s ∧ EvaluatesOwn P s := by
    refine h.invariant (I := fun s => CachesSound P s ∧ EvaluatesOwn P s) ⟨?_, ?_⟩ ?_
    · exact cachesSound_of_reachable .refl
    · intro w wk t func next hwk hphase
      obtain ⟨ok, rfl⟩ := Pool.mem_init hwk
      cases hphase
    · intro s s' a hI hsafe hs
      exact ⟨hI.1.step hs, hI.2.step hI.1 hsafe hs⟩
  exact ⟨hboth.2, fun a s' hs => ⟨shortcutSafe_of_evaluatesOwn hboth.1 hs,
    fun hsafe => hboth.2.step hboth.1 hsafe hs⟩⟩

end Runs

/-! ## Two runs -/

/-- Functions `double` and `inc` in any module. -/
def demoWorld : PyWorld (BitVec 64) String Names (BitVec 64) where
  fl := hostFloatBits
  box := fun
    | .i64, v => .ok v
    | .f64, v => .ok v
  callOneArg := fun func x =>
    if func.2 = "double" then .ok (x + x) else if func.2 = "inc" then .ok (x + 1)
    else .error "TypeError"
  convert := fun
    | .i64, x => .ok x
    | .f64, x => .ok x
  findModule := fun _ _ name => .ok name
  getattr := fun m name => .ok (m, name)
  sysPathId := List.length

abbrev DemoPool := Pool (BitVec 64) String Names

/-- The only worker answers the only chunk of call `c`, and the call returns. -/
def serve (c : ℕ) : List (PoolAction (BitVec 64)) :=
  [.call c, .worker 0 none, .worker 0 none, .worker 0 none, .worker 0 none, .worker 0 none,
    .worker 0 none, .call c, .call c, .call c]

/-- A call of the function on `3`, with its context at the address. -/
def callAt (func : String) (addr : ℕ) : PoolAction (BitVec 64) :=
  .execute ("tasks", func) [] (.int64 [3]) addr

/-- All calls so far have the same names. -/
def OneName (names : Names) (s : DemoPool) : Prop :=
  (∀ wk ∈ s.workers, wk.cache.lastNames = none ∨ wk.cache.lastNames = some names) ∧
    ∀ call ∈ s.calls, call.ctx.names = names

instance (names : Names) (s : DemoPool) : Decidable (OneName names s) :=
  inferInstanceAs (Decidable (_ ∧ _))

theorem OneName.shortcutSafe {names : Names} {s : DemoPool} (h : OneName names s)
    (a : PoolAction (BitVec 64)) : ShortcutSafe demoWorld s a := by
  cases a with
  | worker w fault =>
    intro wk t call func names' hwk _ hcall _ hnames
    rcases h.1 wk (List.mem_of_getElem? hwk) with hnone | hsome
    · rw [hnone] at hnames
      cases hnames
    · rw [hsome] at hnames
      cases hnames
      rw [h.2 call (List.mem_of_getElem? hcall)]
  | execute | call | shutdownWorkers | shutdown | crash => trivial

theorem tasks_evaluate_own_demo : ∃ s : DemoPool,
    Run demoWorld.step (ShortcutSafe demoWorld) (Pool.init [] [true])
      ([callAt "double" 4096, .worker 0 none] ++ serve 0 ++
        [callAt "double" 4096, .call 1, .worker 0 none, .worker 0 none]) s ∧
      EvaluatesOwn demoWorld s := by
  obtain ⟨s, hs⟩ : ∃ s, Run demoWorld.step (fun s _ => OneName ("tasks", "double") s)
      (Pool.init [] [true]) ([callAt "double" 4096, .worker 0 none] ++ serve 0 ++
        [callAt "double" 4096, .call 1, .worker 0 none, .worker 0 none]) s := ⟨_, run_of_exec rfl⟩
  have hrun := hs.mono fun s a h => OneName.shortcutSafe h a
  exact ⟨s, hrun, (tasks_evaluate_own hrun).1⟩

/-- `double` runs for a call of `inc` whose context has the address of the call before. -/
theorem stale_context_pointer : ∃ s : DemoPool,
    Run demoWorld.step (fun _ _ => True) (Pool.init [] [true])
      ([callAt "double" 4096, .worker 0 none] ++ serve 0 ++
        [callAt "inc" 4096, .call 1, .worker 0 none, .worker 0 none]) s ∧
      ¬ EvaluatesOwn demoWorld s := by
  refine ⟨_, run_of_exec rfl, ?_⟩
  intro h
  obtain ⟨call, hcall, hown⟩ := h 0 _ _ _ _ rfl rfl
  cases hcall
  revert hown
  decide

end Gilmap
