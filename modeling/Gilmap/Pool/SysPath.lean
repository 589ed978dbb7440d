import Gilmap.Pool.FunctionCache

/-! # The path that a worker's tasks see

A worker patches its `sys.path` only when it has to import a task's function. What it has
patched stays there; a task whose function is cached brings its path along for nothing.
-/
namespace Gilmap
open Library
variable {F M Fn Obj : Type}

/-! ## Patching -/

/-- The entries a worker has seen are in its path, and so is the last path it has patched. -/
structure PathsKnown (calls : List (Call F)) (k : WorkerCache M Fn) : Prop where
  seen : ∀ p ∈ k.pathSet, p ∈ k.interp.sysPath
  last : k.lastSysPathId = 2 ^ 64 - 1 ∨ ∃ call ∈ calls,
    call.ctx.sysPathId = k.lastSysPathId ∧ ∀ p ∈ call.ctx.sysPath, p ∈ k.interp.sysPath

section Patching
variable {k k' : WorkerCache M Fn} {fault : Option (ℕ × String)} {ctx : CallContext}
  {paths : List String} {r : Except String Unit}

/-- Patching takes nothing out of the path and, unless it fails, puts everything in. -/
theorem appendPaths_path (h : k.appendPaths fault paths = (r, k'))
    (hseen : ∀ p ∈ k.pathSet, p ∈ k.interp.sysPath) :
    (∀ p ∈ k'.pathSet, p ∈ k'.interp.sysPath) ∧ (∀ p ∈ k.interp.sysPath, p ∈ k'.interp.sysPath) ∧
      k'.lastSysPathId = k.lastSysPathId ∧ (r = .ok () → ∀ p ∈ paths, p ∈ k'.interp.sysPath) := by
  induction paths generalizing fault k with
  | nil =>
    cases h
    exact ⟨hseen, fun _ hp => hp, rfl, fun _ _ hp => (List.not_mem_nil hp).elim⟩
  | cons p ps ih =>
    simp only [WorkerCache.appendPaths] at h
    split at h
    · rename_i hp
      obtain ⟨h₁, h₂, h₃, h₄⟩ := ih h hseen
      exact ⟨h₁, h₂, h₃, fun hr q hq => (List.mem_cons.mp hq).elim (fun he => he ▸ h₂ p (hseen p hp))
        (h₄ hr q)⟩
    · split at h
      · cases h
        refine ⟨hseen, fun _ hp => hp, rfl, fun hr => ?_⟩
        cases hr
      · generalize hi : (if p ∈ k.interp.sysPath then k.interp
          else { k.interp with sysPath := k.interp.sysPath ++ [p] }) = interp at h
        have hmem : p ∈ interp.sysPath := by
          rw [← hi]
          split
          · assumption
          · simp
        have hkeep : ∀ q ∈ k.interp.sysPath, q ∈ interp.sysPath := by
          intro q hq
          rw [← hi]
          split
          · exact hq
          · exact List.mem_append_left _ hq
        obtain ⟨h₁, h₂, h₃, h₄⟩ := ih h fun q hq =>
          (List.mem_cons.mp hq).elim (fun he => he ▸ hmem) fun hq => hkeep q (hseen q hq)
        exact ⟨h₁, fun q hq => h₂ q (hkeep q hq), h₃, fun hr q hq =>
          (List.mem_cons.mp hq).elim (fun he => he ▸ h₂ p hmem) (h₄ hr q)⟩

theorem resolve_sysPath {P : PyWorld F M Fn Obj} {w : ℕ} {interp interp' : Interp M} {names : Names}
    {r : Except String Fn} (h : P.resolve w interp names = (r, interp')) :
    interp'.sysPath = interp.sysPath := by
  unfold PyWorld.resolve at h
  split at h
  · cases h
    rfl
  · split at h <;> cases h <;> rfl

end Patching

/-- The caches of the worker hold a function for the call. -/
def WorkerCache.finds (k : WorkerCache M Fn) (call : Call F) : Prop :=
  k.shortcut call.addr ≠ none ∨ k.funcCache.lookup call.ctx.names ≠ none

/-- What a lookup does to the path. -/
structure LooksUp (call : Call F) (k k' : WorkerCache M Fn) (found : Prop) : Prop where
  seen : ∀ p ∈ k'.pathSet, p ∈ k'.interp.sysPath
  keeps : ∀ p ∈ k.interp.sysPath, p ∈ k'.interp.sysPath
  last : k'.lastSysPathId = k.lastSysPathId ∨ k'.lastSysPathId = call.ctx.sysPathId ∧
    ∀ p ∈ call.ctx.sysPath, p ∈ k'.interp.sysPath
  patched : found → ¬ k.finds call → ∀ p ∈ call.ctx.sysPath, p ∈ k'.interp.sysPath
  cached : k.finds call → k'.interp = k.interp

theorem lookup_path {P : PyWorld F M Fn Obj} {w : ℕ} {fault : Option (ℕ × String)} {call : Call F}
    {k k' : WorkerCache M Fn} {r : Except String Fn}
    (h : P.lookup w fault call.ctx call.addr k = (r, k'))
    (hseen : ∀ p ∈ k.pathSet, p ∈ k.interp.sysPath)
    (hlast : call.ctx.sysPathId = k.lastSysPathId → ∀ p ∈ call.ctx.sysPath, p ∈ k.interp.sysPath) :
    LooksUp call k k' (∃ func, r = .ok func) := by
  unfold PyWorld.lookup at h
  split at h
  · rename_i func hs
    cases h
    exact ⟨hseen, fun _ hp => hp, .inl rfl, fun _ hn => (hn (.inl (by simp [hs]))).elim, fun _ => rfl⟩
  rename_i hs
  split at h
  · rename_i func hf
    cases h
    exact ⟨hseen, fun _ hp => hp, .inl rfl, fun _ hn => (hn (.inr (by simp [hf]))).elim, fun _ => rfl⟩
  rename_i hf
  have hmiss : ¬ k.finds call := by simp [WorkerCache.finds, hs, hf]
  split at h
  · -- the patching fails
    rename_i k₁ hpatch
    cases h
    unfold WorkerCache.patchPath at hpatch
    split at hpatch
    · cases hpatch
    · split at hpatch
      · cases hpatch
        obtain ⟨h₁, h₂, h₃, -⟩ := appendPaths_path ‹_› hseen
        exact ⟨h₁, h₂, .inl h₃, fun ⟨_, hr⟩ => (nomatch hr), fun hc => (hmiss hc).elim⟩
      · cases hpatch
  · rename_i k₁ hpatch
    -- every entry is in the path
    have hk₁ : (∀ p ∈ k₁.pathSet, p ∈ k₁.interp.sysPath) ∧
        (∀ p ∈ k.interp.sysPath, p ∈ k₁.interp.sysPath) ∧
        (k₁.lastSysPathId = k.lastSysPathId ∨ k₁.lastSysPathId = call.ctx.sysPathId) ∧
        ∀ p ∈ call.ctx.sysPath, p ∈ k₁.interp.sysPath := by
      unfold WorkerCache.patchPath at hpatch
      split at hpatch
      · rename_i hid
        cases hpatch
        exact ⟨hseen, fun _ hp => hp, .inl rfl, hlast hid⟩
      · split at hpatch
        · cases hpatch
        · cases hpatch
          obtain ⟨h₁, h₂, -, h₄⟩ := appendPaths_path ‹_› hseen
          exact ⟨h₁, h₂, .inr rfl, h₄ rfl⟩
    obtain ⟨h₁, h₂, h₃, h₄⟩ := hk₁
    have hlast' : k₁.lastSysPathId = k.lastSysPathId ∨ k₁.lastSysPathId = call.ctx.sysPathId ∧
        ∀ p ∈ call.ctx.sysPath, p ∈ k₁.interp.sysPath := h₃.imp_right fun h => ⟨h, h₄⟩
    split at h
    · rename_i interp hres
      cases h
      have hpath := resolve_sysPath hres
      exact ⟨hpath ▸ h₁, hpath ▸ h₂, hpath ▸ hlast', fun _ _ => hpath ▸ h₄, fun hc => (hmiss hc).elim⟩
    · rename_i func interp hres
      cases h
      have hpath := resolve_sysPath hres
      exact ⟨hpath ▸ h₁, hpath ▸ h₂, hpath ▸ hlast', fun _ _ => hpath ▸ h₄, fun hc => (hmiss hc).elim⟩

/-! ## Runs of the pool -/

/-- Every worker that runs a task has the entries of the task's path in its `sys.path`. -/
def SeesPath (s : Pool F M Fn) : Prop :=
  ∀ (w : ℕ) (wk : Worker M Fn) t func next, s.workers[w]? = some wk →
    wk.phase = .running t func next → ∃ call, s.calls[t.call]? = some call ∧
      ∀ p ∈ call.ctx.sysPath, p ∈ wk.cache.interp.sysPath

/-- When the function of a task is cached, the entries of the task's path are there. -/
def PathSafe (s : Pool F M Fn) : PoolAction F → Prop
  | .worker w _ => ∀ (wk : Worker M Fn) t call, s.workers[w]? = some wk →
    wk.phase = .resolving t → s.calls[t.call]? = some call → wk.cache.finds call →
    ∀ p ∈ call.ctx.sysPath, p ∈ wk.cache.interp.sysPath
  | .execute _ _ _ _ | .call _ | .shutdownWorkers | .shutdown _ | .crash _ => True

/-- The hash tells the paths of the calls apart and is never `u64::MAX`. -/
structure PathIdsExact (s : Pool F M Fn) : Prop where
  inj : ∀ call ∈ s.calls, ∀ call' ∈ s.calls, call.ctx.sysPathId = call'.ctx.sysPathId →
    call.ctx.sysPath = call'.ctx.sysPath
  notMax : ∀ call ∈ s.calls, call.ctx.sysPathId ≠ 2 ^ 64 - 1

section Runs
variable {P : PyWorld F M Fn Obj} {s s' : Pool F M Fn} {a : PoolAction F}

theorem step_ctx {call : Call F} (hs : P.step s a = some s') (hc : call ∈ s.calls) :
    ∃ call' ∈ s'.calls, call'.ctx = call.ctx := by
  obtain ⟨i, hi⟩ := List.mem_iff_getElem?.mp hc
  obtain ⟨call', hcall', hlater⟩ := step_calls hs hi
  exact ⟨call', List.mem_of_getElem? hcall', hlater.1.ctx⟩

theorem PathIdsExact.of_step (h : PathIdsExact s') (hs : P.step s a = some s') : PathIdsExact s where
  inj call hc call' hc' hid := by
    obtain ⟨c, hcm, hctx⟩ := step_ctx hs hc
    obtain ⟨c', hcm', hctx'⟩ := step_ctx hs hc'
    rw [← hctx, ← hctx'] at hid ⊢
    exact h.inj c hcm c' hcm' hid
  notMax call hc := by
    obtain ⟨c, hcm, hctx⟩ := step_ctx hs hc
    rw [← hctx]
    exact h.notMax c hcm

theorem PathsKnown.step {k : WorkerCache M Fn} (h : PathsKnown s.calls k) (hs : P.step s a = some s') :
    PathsKnown s'.calls k where
  seen := h.seen
  last := h.last.imp_right fun ⟨call, hc, hid, hpath⟩ => by
    obtain ⟨call', hc', hctx⟩ := step_ctx hs hc
    exact ⟨call', hc', by rw [hctx, hid], by rwa [hctx]⟩

/-- A lookup for a call of the pool, whose hash is exact. -/
theorem PathsKnown.lookup {w : ℕ} {fault : Option (ℕ × String)} {c : ℕ} {call : Call F}
    {k k' : WorkerCache M Fn} {r : Except String Fn} (h : PathsKnown s.calls k)
    (hexact : PathIdsExact s) (hcall : s.calls[c]? = some call)
    (hl : P.lookup w fault call.ctx call.addr k = (r, k')) :
    PathsKnown s.calls k' ∧ LooksUp call k k' (∃ func, r = .ok func) := by
  have hmem := List.mem_of_getElem? hcall
  have hlooks : LooksUp call k k' (∃ func, r = .ok func) := by
    apply lookup_path hl h.seen
    intro hid
    rcases h.last with hmax | ⟨call', hc', hid', hpath⟩
    · exact absurd (hid.trans hmax) (hexact.notMax call hmem)
    · rw [hexact.inj call hmem call' hc' (hid.trans hid'.symm)]
      exact hpath
  refine ⟨⟨hlooks.seen, ?_⟩, hlooks⟩
  rcases hlooks.last with hsame | ⟨hid, hpath⟩
  · rw [hsame]
    exact h.last.imp_right fun ⟨call', hc', hid', hpath⟩ =>
      ⟨call', hc', hid', fun p hp => hlooks.keeps p (hpath p hp)⟩
  · exact .inr ⟨call, hmem, hid.symm, hpath⟩

def PathsAllKnown (s : Pool F M Fn) : Prop :=
  ∀ (w : ℕ) (wk : Worker M Fn), s.workers[w]? = some wk → PathsKnown s.calls wk.cache

theorem PathsAllKnown.step (h : PathsAllKnown s) (hexact : PathIdsExact s)
    (hs : P.step s a = some s') : PathsAllKnown s' := by
  intro w wk' hwk'
  by_cases ha : a.worker? = some w
  · cases a with
    | worker w' fault =>
      cases ha
      obtain ⟨wk, hwk, hstep⟩ := stepWorker_cases hs
      have hk := h w wk hwk
      cases hstep with
      | resolved _ hcall hl | resolveFailed _ hcall hl =>
        cases getElem?_set_self_some hwk hwk'
        exact (hk.lookup hexact hcall hl).1.step hs
      | startFailed | exit =>
        rw [Pool.exit_workers] at hwk'
        cases getElem?_set_self_some hwk hwk'
        exact hk.step hs
      | recvShutdown =>
        cases getElem?_set_self_some hwk hwk'
        exact PathsKnown.step (k := { wk.cache with funcCache := [] }) ⟨hk.seen, hk.last⟩ hs
      | started | recvTask | element | elementFailed | elementsDone | finish | release =>
        cases getElem?_set_self_some hwk hwk'
        exact hk.step hs
    | crash w' =>
      cases ha
      obtain ⟨wk, hwk, rfl⟩ := crash_cases hs
      rw [Pool.exit_workers] at hwk'
      cases getElem?_set_self_some hwk hwk'
      exact (h w wk hwk).step hs
    | execute | call | shutdownWorkers | shutdown => cases ha
  · rw [step_others hs ha] at hwk'
    exact (h w wk' hwk').step hs

/-- A worker that goes on running keeps its path. -/
theorem SeesPath.kept (h : SeesPath s) (hs : P.step s a = some s') {w : ℕ} {wk wk' : Worker M Fn}
    {t : Task} {func : Fn} {next : ℕ} (hwk : s.workers[w]? = some wk)
    (hphase : wk.phase = .running t func next) (hcache : wk'.cache = wk.cache) :
    ∃ call, s'.calls[t.call]? = some call ∧ ∀ p ∈ call.ctx.sysPath, p ∈ wk'.cache.interp.sysPath := by
  obtain ⟨call, hcall, hpath⟩ := h w wk t func next hwk hphase
  obtain ⟨call', hcall', hlater⟩ := step_calls hs hcall
  exact ⟨call', hcall', by rwa [hlater.1.ctx, hcache]⟩

theorem SeesPath.step (h : SeesPath s) (hknown : PathsAllKnown s) (hexact : PathIdsExact s)
    (hsafe : PathSafe s a) (hs : P.step s a = some s') : SeesPath s' := by
  intro w wk' t func next hwk' hphase'
  cases running_of_step hs hwk' hphase' with
  | @resolved fault wk call ha hwk hphase hcall hl hcalls =>
    subst ha
    refine ⟨call, hcalls ▸ hcall, ?_⟩
    have hlooks := ((hknown w wk hwk).lookup hexact hcall hl).2
    by_cases hfinds : wk.cache.finds call
    · rw [hlooks.cached hfinds]
      exact hsafe wk t call hwk hphase hcall hfinds
    · exact hlooks.patched ⟨_, rfl⟩ hfinds
  | running hwk hphase hcache => exact h.kept hs hwk hphase hcache

/-- A cached function whose task has new entries in its path runs without them. -/
theorem pathSafe_of_seesPath (hs : P.step s a = some s') (h : SeesPath s') : PathSafe s a := by
  cases a with
  | worker w fault =>
    intro wk t call hwk hphase hcall hfinds
    obtain ⟨func, cache, hl, hinterp⟩ : ∃ func cache,
        P.lookup w fault call.ctx call.addr wk.cache = (.ok func, cache) ∧
          cache.interp = wk.cache.interp := by
      unfold PyWorld.lookup
      cases hshort : wk.cache.shortcut call.addr with
      | some func => exact ⟨func, wk.cache, rfl, rfl⟩
      | none =>
        cases hfunc : wk.cache.funcCache.lookup call.ctx.names with
        | some func => exact ⟨func, _, rfl, rfl⟩
        | none => simp [WorkerCache.finds, hshort, hfunc] at hfinds
    have hs' : s' = s.setWorker w { wk with phase := .running t func 0, cache := cache } := by
      simp only [PyWorld.step, Pool.stepWorker, hwk, hphase, hcall, hl, bind, Option.bind_some,
        Option.some.injEq] at hs
      exact hs.symm
    have hwk' : s'.workers[w]? = some { wk with phase := .running t func 0, cache := cache } := by
      rw [hs', Pool.setWorker_workers, getElem?_set_some hwk, if_pos rfl]
    obtain ⟨call', hcall', hpath⟩ := h w _ t func 0 hwk' rfl
    rw [hs', Pool.setWorker_calls, hcall] at hcall'
    cases hcall'
    rw [← hinterp]
    exact hpath
  | execute | call | shutdownWorkers | shutdown | crash => trivial

/-- **Workers see the caller's path** in a run in which a task with a cached function brings no
new entries, and a further step keeps this up only if it brings none either. -/
theorem workers_see_path {sysPath : List String} {starts : List Bool} {as : List (PoolAction F)}
    (h : Run P.step PathSafe (Pool.init sysPath starts) as s) (hexact : PathIdsExact s) :
    SeesPath s ∧ ∀ a s', P.step s a = some s' → (SeesPath s' ↔ PathSafe s a) := by
  have hboth : PathIdsExact s → PathsAllKnown s ∧ SeesPath s := by
    refine h.invariant (I := fun s => PathIdsExact s → PathsAllKnown s ∧ SeesPath s) ?_ ?_
    · refine fun _ => ⟨fun w wk hwk => ?_, fun w wk t func next hwk hphase => ?_⟩
      · obtain ⟨ok, rfl⟩ := Pool.mem_init hwk
        exact ⟨fun _ hp => (List.not_mem_nil hp).elim, .inl rfl⟩
      · obtain ⟨ok, rfl⟩ := Pool.mem_init hwk
        cases hphase
    · intro s s' a hI hsafe hs hexact'
      have hexact := hexact'.of_step hs
      obtain ⟨hknown, hsees⟩ := hI hexact
      exact ⟨hknown.step hexact hs, hsees.step hknown hexact hsafe hs⟩
  obtain ⟨hknown, hsees⟩ := hboth hexact
  exact ⟨hsees, fun a s' hs =>
    ⟨pathSafe_of_seesPath hs, fun hsafe => hsees.step hknown hexact hsafe hs⟩⟩

end Runs

/-! ## Two runs -/

instance (k : WorkerCache M Fn) (call : Call F) : Decidable (k.finds call) :=
  decidable_of_iff ((k.shortcut call.addr).isSome ∨ (k.funcCache.lookup call.ctx.names).isSome) <| by
    simp only [WorkerCache.finds, Option.isSome_iff_ne_none]

/-- The task for which the worker is looking for a function. -/
def WorkerPhase.resolving? : WorkerPhase Fn → Option Task
  | .resolving t => some t
  | _ => none

theorem WorkerPhase.resolving?_eq_some {phase : WorkerPhase Fn} {t : Task} :
    phase.resolving? = some t ↔ phase = .resolving t := by
  cases phase <;> simp [resolving?]

instance (s : Pool F M Fn) (a : PoolAction F) : Decidable (PathSafe s a) :=
  match a with
  | .worker w _ => decidable_of_iff (∀ wk ∈ s.workers[w]?, ∀ t ∈ wk.phase.resolving?,
      ∀ call ∈ s.calls[t.call]?, wk.cache.finds call →
        ∀ p ∈ call.ctx.sysPath, p ∈ wk.cache.interp.sysPath) <| by
    simp only [PathSafe, Option.mem_def, WorkerPhase.resolving?_eq_some]
    exact ⟨fun h wk t call hwk ht hcall => h wk hwk t ht call hcall,
      fun h wk hwk t ht call hcall => h wk t call hwk ht hcall⟩
  | .execute _ _ _ _ | .call _ | .shutdownWorkers | .shutdown _ | .crash _ => .isTrue trivial

instance (s : Pool F M Fn) : Decidable (PathIdsExact s) :=
  decidable_of_iff ((∀ call ∈ s.calls, ∀ call' ∈ s.calls, call.ctx.sysPathId = call'.ctx.sysPathId →
    call.ctx.sysPath = call'.ctx.sysPath) ∧ ∀ call ∈ s.calls, call.ctx.sysPathId ≠ 2 ^ 64 - 1)
    ⟨fun h => ⟨h.1, h.2⟩, fun h => ⟨h.inj, h.notMax⟩⟩

/-- A call of `double` with the path, its context at the address. -/
def callWith (sysPath : List String) (addr : ℕ) : PoolAction (BitVec 64) :=
  .execute ("tasks", "double") sysPath (.int64 [3]) addr

/-- A call with the path, and a second one with another path up to the start of its task. -/
def callTwice (first second : List String) : List (PoolAction (BitVec 64)) :=
  [callWith first 4096, .worker 0 none] ++ serve 0 ++
    [callWith second 8192, .call 1, .worker 0 none, .worker 0 none]

theorem workers_see_path_demo : ∃ s : DemoPool,
    Run demoWorld.step PathSafe (Pool.init [] [true]) (callTwice ["lib"] ["lib"]) s ∧ SeesPath s := by
  obtain ⟨s, hs, hexact⟩ : ∃ s : DemoPool, Run demoWorld.step PathSafe (Pool.init [] [true])
      (callTwice ["lib"] ["lib"]) s ∧ PathIdsExact s := ⟨_, run_of_exec rfl, by decide⟩
  exact ⟨s, hs, (workers_see_path hs hexact).1⟩

/-- The second call's task runs without the entry that the call has added to its path. -/
theorem new_entry_missed : ∃ s : DemoPool,
    Run demoWorld.step (fun _ _ => True) (Pool.init [] [true]) (callTwice [] ["lib"]) s ∧
      PathIdsExact s ∧ ¬ SeesPath s := by
  refine ⟨_, run_of_exec rfl, by decide, ?_⟩
  intro h
  obtain ⟨call, hcall, hpath⟩ := h 0 _ _ _ _ rfl rfl
  cases hcall
  revert hpath
  decide

end Gilmap
