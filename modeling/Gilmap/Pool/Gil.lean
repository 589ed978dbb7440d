import Gilmap.Pool.Progress

/-! # Back-pressure and the GIL

The dispatcher sends its chunks with the GIL of the main interpreter held, and lets it go
in `wait_for_tasks` only. A worker may need the same GIL for the first import of a module,
as extension modules do.
-/
namespace Gilmap
open Library
variable {F M Fn Obj : Type}

/-- The module that a worker imports for a task, if it has not done so before. -/
def WorkerCache.firstImport (k : WorkerCache M Fn) (fault : Option (ℕ × String)) (ctx : CallContext)
    (ctxPtr : ℕ) : Option String :=
  match k.shortcut ctxPtr, k.funcCache.lookup ctx.names with
  | none, none =>
    match k.patchPath fault ctx with
    | (.error _, _) => none
    | (.ok (), k) =>
      match k.interp.modules.lookup ctx.moduleName with
      | some _ => none
      | none => some ctx.moduleName
  | _, _ => none

/-- The next step of the worker is an import for which it needs the GIL. -/
def Pool.importsNext (s : Pool F M Fn) (needsGil : String → Bool) (w : ℕ)
    (fault : Option (ℕ × String)) : Bool :=
  match s.workers[w]? with
  | none => false
  | some wk =>
    match wk.phase with
    | .resolving t =>
      match s.calls[t.call]? with
      | none => false
      | some call => (wk.cache.firstImport fault call.ctx call.addr).any needsGil
    | _ => false

/-- The pool with the call whose dispatcher holds the GIL. -/
structure GilPool (F M Fn : Type) where
  pool : Pool F M Fn
  gil : Option ℕ

def ArrowArray.size : ArrowArray F → ℕ
  | .int64 values => values.length
  | .float64 values => values.length
  | .other _ => 0

def Call.isSending (call : Call F) : Bool :=
  match call.phase with
  | .sending => true
  | .waiting _ _ | .returned _ => false

/-- A step of the pool, if the GIL is where the step needs it. -/
def PyWorld.gilStep (P : PyWorld F M Fn Obj) (needsGil : String → Bool) (s : GilPool F M Fn) :
    PoolAction F → Option (GilPool F M Fn)
  | .execute names sysPath array addr =>
    if s.gil = none then
      (s.pool.begin P names sysPath array addr).map fun pool =>
        -- an array of another type returns at once
        ⟨pool, if s.pool.calls.length < pool.calls.length then some s.pool.calls.length else none⟩
    else none
  | .call c => do
    let call ← s.pool.calls[c]?
    match call.phase with
    | .sending =>
      if s.gil = some c then
        (s.pool.stepCall c).map fun pool =>
          ⟨pool, if pool.calls[c]?.any Call.isSending then some c else none⟩
      else none
    | .waiting next _ =>
      -- `detach` takes the GIL back at its end
      if next < call.done.length ∨ s.gil = none then (s.pool.stepCall c).map (⟨·, s.gil⟩) else none
    | .returned _ => none
  | .worker w fault =>
    if s.pool.importsNext needsGil w fault = true ∧ s.gil ≠ none then none
    else (s.pool.stepWorker P w fault).map (⟨·, s.gil⟩)
  | .shutdownWorkers => (P.step s.pool .shutdownWorkers).map (⟨·, s.gil⟩)
  | .shutdown k => (P.step s.pool (.shutdown k)).map (⟨·, s.gil⟩)
  | .crash w => (P.step s.pool (.crash w)).map (⟨·, s.gil⟩)

/-! ## Pools whose workers all live -/

/-- Calls come and workers go on, and nothing else happens. -/
def PoolAction.isWork : PoolAction F → Bool
  | .execute _ _ _ _ | .call _ | .worker _ _ => true
  | .shutdownWorkers | .shutdown _ | .crash _ => false

structure AllLive (s : Pool F M Fn) : Prop where
  nonempty : 0 < s.workers.length
  live : ∀ wk ∈ s.workers, wk.live = true
  queue : ∀ msg ∈ s.queue, msg.isShutdown = false
  room : s.queue.length ≤ s.queueCap

section Live
variable {P : PyWorld F M Fn Obj} {s s' : Pool F M Fn} {a : PoolAction F} {wk : Worker M Fn} {w : ℕ}

theorem AllLive.sendSafe (h : AllLive s) (a : PoolAction F) : SendSafe s a := by
  refine sendSafe_of_room ?_ a
  have hzero : s.shutdownsBefore s.queue.length = 0 := by
    apply List.countP_eq_zero.mpr
    intro msg hmsg
    simp [h.queue msg (List.mem_of_mem_take hmsg)]
  obtain ⟨wk, hwk⟩ : ∃ wk, s.workers[0]? = some wk := ⟨_, List.getElem?_eq_getElem h.nonempty⟩
  rw [hzero]
  exact List.countP_pos_iff.mpr ⟨wk, List.mem_of_getElem? hwk, h.live wk (List.mem_of_getElem? hwk)⟩

theorem Worker.live_phase (h : wk.live = true) :
    wk.startsOk = true ∧ wk.phase ≠ .exiting ∧ wk.phase ≠ .exited := by
  unfold Worker.live at h
  cases hphase : wk.phase <;> simp [hphase] at h ⊢ <;> exact h

theorem AllLive.connected (h : AllLive s) : s.disconnected = false := by
  obtain ⟨wk, hwk⟩ : ∃ wk, s.workers[0]? = some wk := ⟨_, List.getElem?_eq_getElem h.nonempty⟩
  refine Pool.connected_of hwk ?_
  have hne := (Worker.live_phase (h.live wk (List.mem_of_getElem? hwk))).2.2
  cases hphase : wk.phase <;> simp [hphase, WorkerPhase.isExited] at hne ⊢

theorem AllLive.step (h : AllLive s) (ha : a.isWork = true) (hs : P.step s a = some s') :
    AllLive s' := by
  cases a with
  | execute names sysPath array addr =>
    obtain ⟨-, rfl | ⟨d, zero, input, rfl⟩⟩ := begin_cases hs
    · exact h
    · exact ⟨h.nonempty, h.live, h.queue, h.room⟩
  | call c =>
    obtain ⟨call, hcall, hstep⟩ := stepCall_cases hs
    cases hstep with
    | send _ _ _ hroom =>
      refine ⟨h.nonempty, h.live, fun msg hmsg => ?_, ?_⟩
      · rcases List.mem_append.mp hmsg with hold | hnew
        · exact h.queue msg hold
        · cases List.mem_singleton.mp hnew
          rfl
      · change (s.queue ++ [_]).length ≤ s.queueCap
        rw [List.length_append, List.length_singleton]
        omega
    | allSent | sendFailed | finish | waitOk | waitErr => exact ⟨h.nonempty, h.live, h.queue, h.room⟩
  | worker w fault =>
    obtain ⟨wk, hwk, hstep⟩ := stepWorker_cases hs
    obtain ⟨hstarts, hne, hne'⟩ := Worker.live_phase (h.live wk (List.mem_of_getElem? hwk))
    have hput : ∀ {wk' : Worker M Fn}, s'.workers = s.workers.set w wk' → wk'.live = true →
        (∀ msg ∈ s'.queue, msg ∈ s.queue) → s'.queue.length ≤ s.queue.length → AllLive s' := by
      intro wk' hworkers hlive hqueue hlen
      refine ⟨by rw [hworkers, List.length_set]; exact h.nonempty, fun x hx => ?_,
        fun msg hmsg => h.queue msg (hqueue msg hmsg), ?_⟩
      · rw [hworkers] at hx
        rcases List.mem_or_eq_of_mem_set hx with hold | rfl
        · exact h.live x hold
        · exact hlive
      · rw [Pool.queueCap, hworkers, List.length_set]
        exact hlen.trans h.room
    have hlive : ∀ {phase : WorkerPhase Fn} {cache : WorkerCache M Fn}, phase ≠ .exiting →
        phase ≠ .exited → (⟨wk.startsOk, phase, cache⟩ : Worker M Fn).live = true := by
      intro phase cache hx hx'
      cases phase <;> simp [Worker.live, hstarts] at hx hx' ⊢
    cases hstep with
    | startFailed _ hfails => simp [hstarts] at hfails
    | exit hphase => exact absurd hphase hne
    | recvShutdown _ hqueue =>
      have hmsg := h.queue .shutdown (by rw [hqueue]; exact List.mem_cons_self)
      simp [WorkerMessage.isShutdown] at hmsg
    | recvTask _ hqueue =>
      refine hput rfl (hlive (by simp) (by simp)) (fun msg hmsg => ?_) ?_
      · rw [hqueue]
        exact List.mem_cons_of_mem _ hmsg
      · simp [hqueue]
    | started | resolved | resolveFailed | element | elementFailed | elementsDone | finish | release =>
      exact hput rfl (hlive (by simp) (by simp)) (fun _ hm => hm) le_rfl
  | shutdownWorkers | shutdown | crash => cases ha

end Live

/-! ## The holder of the GIL -/

def Pool.sends (s : Pool F M Fn) (c : ℕ) : Bool := s.calls[c]?.any Call.isSending

/-- What holds of a pool and its GIL as long as all workers live. -/
structure GilInv (s : GilPool F M Fn) : Prop where
  live : AllLive s.pool
  accounted : Accounted s.pool
  shaped : AllShaped s.pool
  noOrphan : s.pool.NoOrphan
  holder : ∀ c, s.gil = some c ↔ s.pool.sends c = true

section Gil
variable {P : PyWorld F M Fn Obj} {needsGil : String → Bool} {s s' : GilPool F M Fn}
  {a : PoolAction F} {call : Call F} {c w : ℕ}

theorem gilStep_step (h : P.gilStep needsGil s a = some s') : P.step s.pool a = some s'.pool := by
  cases a with
  | execute names sysPath array addr =>
    simp only [PyWorld.gilStep] at h
    split at h
    · obtain ⟨pool, hpool, rfl⟩ := Option.map_eq_some_iff.mp h
      exact hpool
    · cases h
  | call c =>
    obtain ⟨call, hcall, h⟩ := Option.bind_eq_some_iff.mp h
    split at h
    · split at h
      · obtain ⟨pool, hpool, rfl⟩ := Option.map_eq_some_iff.mp h
        exact hpool
      · cases h
    · split at h
      · obtain ⟨pool, hpool, rfl⟩ := Option.map_eq_some_iff.mp h
        exact hpool
      · cases h
    · cases h
  | worker w fault =>
    simp only [PyWorld.gilStep] at h
    split at h
    · cases h
    · obtain ⟨pool, hpool, rfl⟩ := Option.map_eq_some_iff.mp h
      exact hpool
  | shutdownWorkers =>
    cases h
    rfl
  | shutdown k | crash w =>
    obtain ⟨pool, hpool, rfl⟩ := Option.map_eq_some_iff.mp h
    exact hpool

theorem Pool.sends_congr {p p' : Pool F M Fn}
    (h : p'.calls.map Call.isSending = p.calls.map Call.isSending) : p'.sends c = p.sends c := by
  have hget : ∀ l : List (Call F), l[c]?.any Call.isSending = (l.map Call.isSending)[c]?.any id := by
    intro l
    rw [List.getElem?_map, Option.any_map]
    rfl
  rw [Pool.sends, Pool.sends, hget, hget, h]

theorem Call.isSending_update (call : Call F) (results) (done : List (Option TaskResult)) :
    ({ call with results := results, done := done } : Call F).isSending = call.isSending := by
  unfold Call.isSending
  cases call.phase <;> rfl

/-- A worker does not touch where a call is. -/
theorem WorkerStep.sends {p p' : Pool F M Fn} {fault : Option (ℕ × String)} {wk : Worker M Fn}
    (h : WorkerStep P p w fault wk p') : p'.sends c = p.sends c := by
  refine Pool.sends_congr ?_
  cases h with
  | element _ hcall | finish _ hcall => exact map_set_of_eq hcall (Call.isSending_update ..)
  | startFailed | exit => rw [Pool.exit_calls]
  | started | recvShutdown | recvTask | resolved | resolveFailed | elementFailed | elementsDone
  | release => rfl

/-- A call that waits does not go back to sending. -/
theorem CallStep.sends {p p' : Pool F M Fn} (hcall : p.calls[c]? = some call)
    (hphase : call.isSending = false) (h : CallStep p c call p') (c' : ℕ) :
    p'.sends c' = p.sends c' := by
  refine Pool.sends_congr ?_
  cases h with
  | allSent hsending | sendFailed hsending | send hsending =>
    simp [Call.isSending, hsending] at hphase
  | finish | waitOk | waitErr => exact map_set_of_eq hcall (by rw [hphase]; rfl)

theorem sends_of_other {p p' : Pool F M Fn} (h : CallStep p c call p') {c' : ℕ} (hne : c ≠ c') :
    p'.sends c' = p.sends c' := by
  cases h <;> simp [Pool.sends, List.getElem?_set_ne hne]

theorem Call.begin_isSending (numThreads : ℕ) (ctx : CallContext) (addr : ℕ) (d : Dtype)
    (zero : Elem F d) (input : List (Elem F d)) :
    (Call.begin numThreads ctx addr d zero input).isSending = true := rfl

theorem GilInv.holder_step (h : GilInv s) (hs : P.gilStep needsGil s a = some s')
    (ha : a.isWork = true) (c : ℕ) : s'.gil = some c ↔ s'.pool.sends c = true := by
  cases a with
  | execute names sysPath array addr =>
    simp only [PyWorld.gilStep] at hs
    split at hs
    · rename_i hgil
      obtain ⟨pool, hpool, rfl⟩ := Option.map_eq_some_iff.mp hs
      have hnone : ∀ c, s.pool.sends c = false := fun c => by
        have := h.holder c
        rw [hgil] at this
        simpa using this
      obtain ⟨-, rfl | ⟨d, zero, input, rfl⟩⟩ := begin_cases hpool
      · simp [hnone]
      · have hlen : s.pool.calls.length < (s.pool.calls ++ [Call.begin s.pool.workers.length
            ⟨names.1, names.2, sysPath, P.sysPathId sysPath⟩ addr d zero input]).length := by simp
        simp only [if_pos hlen, Option.some.injEq]
        rcases Nat.lt_trichotomy s.pool.calls.length c with hlt | rfl | hgt
        · simp [Pool.sends, hlt.ne, hlt]
        · simp [Pool.sends, Call.begin_isSending]
        · have hold := hnone c
          rw [Pool.sends] at hold ⊢
          rw [List.getElem?_append_left hgt, hold]
          simp [hgt.ne']
    · cases hs
  | call c' =>
    have hpool := gilStep_step hs
    obtain ⟨call, hcall, hstep⟩ := stepCall_cases hpool
    obtain ⟨call₁, hcall₁, hs⟩ := Option.bind_eq_some_iff.mp hs
    rw [hcall] at hcall₁
    cases hcall₁
    split at hs
    · split at hs
      · rename_i hphase hgil
        obtain ⟨pool, -, rfl⟩ := Option.map_eq_some_iff.mp hs
        change (if pool.sends c' then some c' else none) = some c ↔ pool.sends c = true
        by_cases hc : c' = c
        · subst hc
          split <;> simp [*]
        · rw [sends_of_other hstep hc, ← h.holder c, hgil]
          split <;> simp [hc]
      · cases hs
    · split at hs
      · rename_i next firstError hphase _
        obtain ⟨pool, -, rfl⟩ := Option.map_eq_some_iff.mp hs
        rw [hstep.sends hcall (by simp [Call.isSending, hphase])]
        exact h.holder c
      · cases hs
    · cases hs
  | worker w fault =>
    obtain ⟨wk, -, hstep⟩ := stepWorker_cases (gilStep_step hs)
    simp only [PyWorld.gilStep] at hs
    split at hs
    · cases hs
    · obtain ⟨pool, -, rfl⟩ := Option.map_eq_some_iff.mp hs
      rw [hstep.sends]
      exact h.holder c
  | shutdownWorkers | shutdown | crash => cases ha

theorem GilInv.step (h : GilInv s) (ha : a.isWork = true) (hs : P.gilStep needsGil s a = some s') :
    GilInv s' where
  live := h.live.step ha (gilStep_step hs)
  accounted := h.accounted.step (gilStep_step hs)
  shaped := h.shaped.step (gilStep_step hs)
  noOrphan := by
    refine h.noOrphan.step h.accounted (gilStep_step hs) ?_ (h.live.sendSafe a)
    cases a with
    | crash => cases ha
    | execute | call | worker | shutdownWorkers | shutdown => rfl
  holder := h.holder_step hs ha

/-! ## Deadlock -/

/-- A thread can take a step. -/
def CanStep (P : PyWorld F M Fn Obj) (needsGil : String → Bool) (s : GilPool F M Fn) : Prop :=
  (∃ c s', P.gilStep needsGil s (.call c) = some s') ∨
    ∃ w s', P.gilStep needsGil s (.worker w none) = some s'

def DeadlockFree (P : PyWorld F M Fn Obj) (needsGil : String → Bool) (s : GilPool F M Fn) : Prop :=
  ∀ call ∈ s.pool.calls, call.returned = false → CanStep P needsGil s

/-- Every worker is about to import with the GIL. -/
def Pool.AllImport (p : Pool F M Fn) (needsGil : String → Bool) : Prop :=
  ∀ w < p.workers.length, p.importsNext needsGil w none = true

/-- A dispatcher with the GIL waits for room in the channel, and every worker for the GIL. -/
def GilPool.Blocked (s : GilPool F M Fn) (needsGil : String → Bool) : Prop :=
  ∃ c call, s.gil = some c ∧ s.pool.calls[c]? = some call ∧ call.done.length < call.chunks.length ∧
    s.pool.queueCap ≤ s.pool.queue.length ∧ s.pool.AllImport needsGil

theorem GilInv.not_resting (h : GilInv s) {wk : Worker M Fn} (hwk : s.pool.workers[w]? = some wk)
    (hqueue : s.pool.queue ≠ []) : ¬ s.pool.Resting wk := by
  rintro (hexit | ⟨-, hempty⟩)
  · have hne := (Worker.live_phase (h.live.live wk (List.mem_of_getElem? hwk))).2.2
    cases hphase : wk.phase <;> simp [hphase, WorkerPhase.isExited] at hne hexit
  · exact hqueue hempty

/-- A worker that is not at rest can go on unless it waits for the GIL. -/
theorem GilInv.worker_step (h : GilInv s) {wk : Worker M Fn} (hwk : s.pool.workers[w]? = some wk)
    (hbusy : ¬ s.pool.Resting wk) (hgil : s.pool.importsNext needsGil w none = true → s.gil = none) :
    ∃ s', P.gilStep needsGil s (.worker w none) = some s' := by
  obtain ⟨p', hp'⟩ := stepWorker_enabled (P := P) h.accounted h.shaped hwk hbusy none
  refine ⟨⟨p', s.gil⟩, ?_⟩
  have hfree : ¬ (s.pool.importsNext needsGil w none = true ∧ s.gil ≠ none) :=
    fun ⟨himports, hne⟩ => hne (hgil himports)
  simp only [PyWorld.gilStep, if_neg hfree]
  exact Option.map_eq_some_iff.mpr ⟨p', hp', rfl⟩

/-- A call's step is stopped by the GIL only if it is the last one of its wait. -/
theorem gilStep_call (hcall : s.pool.calls[c]? = some call) (hret : call.returned = false)
    (hgil : call.isSending = true → s.gil = some c)
    (hfree : call.isSending = false → s.gil = none) {p' : Pool F M Fn}
    (hp' : s.pool.stepCall c = some p') : ∃ s', P.gilStep needsGil s (.call c) = some s' := by
  simp only [PyWorld.gilStep, hcall, bind, Option.bind_some]
  unfold Call.isSending at hgil hfree
  unfold Call.returned at hret
  cases hphase : call.phase with
  | sending =>
    rw [hphase] at hgil
    simp only [hgil rfl, if_true, hp', Option.map_some]
    exact ⟨_, rfl⟩
  | waiting next firstError =>
    rw [hphase] at hfree
    simp only [hfree rfl, or_true, if_true, hp', Option.map_some]
    exact ⟨_, rfl⟩
  | returned result => simp [hphase] at hret

/-- Threads that cannot go on are blocked. -/
theorem GilInv.deadlockFree (h : GilInv s) (hb : ¬ s.Blocked needsGil) :
    DeadlockFree P needsGil s := by
  intro call hmem hret
  by_contra hstuck
  rw [CanStep, not_or] at hstuck
  obtain ⟨hcalls, hworkers⟩ := hstuck
  have hwait : ∀ c call, s.pool.calls[c]? = some call → call.returned = false →
      (call.isSending = true → s.gil = some c) → (call.isSending = false → s.gil = none) →
      s.pool.stepCall c = none := by
    intro c call hcall hret hgil hfree
    cases hstep : s.pool.stepCall c with
    | none => rfl
    | some p' => exact absurd ⟨c, gilStep_call hcall hret hgil hfree hstep⟩ hcalls
  cases hgil : s.gil with
  | some g =>
    obtain ⟨call, hcall, hsending⟩ : ∃ call, s.pool.calls[g]? = some call ∧ call.isSending = true :=
      (Option.any_eq_true _ _).mp ((h.holder g).mp hgil)
    have hret : call.returned = false := by
      unfold Call.isSending at hsending
      unfold Call.returned
      cases hphase : call.phase <;> simp [hphase] at hsending ⊢
    have hstep := hwait g call hcall hret (fun _ => hgil) fun hf => by simp [hsending] at hf
    rcases stepCall_blocked hcall hret hstep with ⟨-, -, hfull, hmore⟩ | ⟨_, _, hphase, -⟩
    · refine hb ⟨g, call, hgil, hcall, hmore, hfull, fun w hw => ?_⟩
      by_contra himports
      refine hworkers ⟨w, h.worker_step (List.getElem?_eq_getElem hw) ?_ fun hi => absurd hi himports⟩
      refine h.not_resting (List.getElem?_eq_getElem hw) fun hempty => ?_
      rw [hempty, Pool.queueCap, chunksPerWorker, List.length_nil] at hfull
      omega
    · simp [Call.isSending, hphase] at hsending
  | none =>
    obtain ⟨c, hcall⟩ := List.mem_iff_getElem?.mp hmem
    have hnot : call.isSending = false := by
      have hsends := h.holder c
      rw [hgil, Pool.sends, hcall] at hsends
      simpa using hsends
    have hstep := hwait c call hcall hret (fun ht => by simp [hnot] at ht) fun _ => hgil
    rcases stepCall_blocked hcall hret hstep with ⟨hphase, -⟩ | ⟨_, _, -, hslot⟩
    · simp [Call.isSending, hphase] at hnot
    · obtain ⟨w, wk, hwk, hbusy⟩ := h.noOrphan.busy h.shaped hcall hslot
      exact hworkers ⟨w, h.worker_step hwk hbusy fun _ => hgil⟩

/-! ## Safe steps -/

/-- After the step a dispatcher with the GIL and a chunk to send has room in the channel, or
some worker does not need the GIL. -/
def GilSafe (needsGil : String → Bool) (s : GilPool F M Fn) : PoolAction F → Prop
  | .execute _ _ array _ => 0 < array.size → s.pool.queue.length < s.pool.queueCap ∨
    ¬ s.pool.AllImport needsGil
  | .call c => ∀ call, s.pool.calls[c]? = some call → call.isSending = true →
    call.done.length + 1 < call.chunks.length → s.pool.queue.length + 1 < s.pool.queueCap ∨
      ¬ s.pool.AllImport needsGil
  | .worker _ _ | .shutdownWorkers | .shutdown _ | .crash _ => True

/-- What a worker will import is decided by its own steps. -/
theorem importsNext_of_step {p p' : Pool F M Fn} (hacc : Accounted p) (hs : P.step p a = some p')
    (ha : a.worker? ≠ some w) (fault : Option (ℕ × String)) :
    p'.importsNext needsGil w fault = p.importsNext needsGil w fault := by
  unfold Pool.importsNext
  rw [step_others hs ha]
  cases hwk : p.workers[w]? with
  | none => rfl
  | some wk =>
    cases hphase : wk.phase with
    | resolving t =>
      obtain ⟨call, hcall, -⟩ := hacc.held t (.inr ⟨wk, List.mem_of_getElem? hwk, by
        rw [hphase]; rfl⟩)
      obtain ⟨call', hcall', ⟨_, _, _, rfl⟩, -⟩ := step_calls hs hcall
      simp only [hphase, hcall, hcall']
    | starting | idle | running | finishing | releasing | exiting | exited => simp only [hphase]

/-- A worker that has taken a step does not import next, or has made room. -/
theorem WorkerStep.room {p p' : Pool F M Fn} {wk : Worker M Fn} {fault : Option (ℕ × String)}
    (hwk : p.workers[w]? = some wk) (h : WorkerStep P p w fault wk p') :
    p'.importsNext needsGil w none = false ∨ p'.queue.length < p.queue.length := by
  have hout : ∀ {wk' : Worker M Fn}, p'.workers = p.workers.set w wk' → (∀ t, wk'.phase ≠ .resolving t) →
      p'.importsNext needsGil w none = false := by
    intro wk' hworkers hne
    unfold Pool.importsNext
    rw [hworkers, getElem?_set_some hwk, if_pos rfl]
    cases hphase : wk'.phase with
    | resolving t => exact absurd hphase (hne t)
    | starting | idle | running | finishing | releasing | exiting | exited => simp only [hphase]
  cases h with
  | startFailed | exit => exact .inl (hout Pool.exit_workers nofun)
  | recvShutdown _ hqueue | recvTask _ hqueue => exact .inr (by simp [hqueue])
  | started | resolved | resolveFailed | element | elementFailed | elementsDone | finish | release =>
    exact .inl (hout rfl nofun)

theorem allImport_of_step {p p' : Pool F M Fn} (hacc : Accounted p) (hs : P.step p a = some p')
    (ha : a.worker? = none) : p'.AllImport needsGil ↔ p.AllImport needsGil := by
  have hlen : p'.workers.length = p.workers.length := by
    have hworkers : p'.workers = p.workers :=
      List.ext_getElem? fun w => step_others hs (by rw [ha]; exact nofun)
    rw [hworkers]
  unfold Pool.AllImport
  rw [hlen]
  apply forall₂_congr
  intro w _
  rw [importsNext_of_step hacc hs (by rw [ha]; exact nofun)]

theorem GilPool.blocked_iff_holder (hgil : s.gil = some c) (hcall : s.pool.calls[c]? = some call) :
    s.Blocked needsGil ↔ call.done.length < call.chunks.length ∧
      s.pool.queueCap ≤ s.pool.queue.length ∧ s.pool.AllImport needsGil := by
  constructor
  · rintro ⟨c', call', hgil', hcall', hrest⟩
    rw [hgil] at hgil'
    cases hgil'
    rw [hcall] at hcall'
    cases hcall'
    exact hrest
  · exact fun hrest => ⟨c, call, hgil, hcall, hrest⟩

theorem le_imp_not_iff {m n : ℕ} {q : Prop} : (m ≤ n → ¬ q) ↔ n < m ∨ ¬ q :=
  ⟨fun h => or_iff_not_imp_left.mpr fun hn => h (not_lt.mp hn), fun h hle => h.resolve_left (not_lt.mpr hle)⟩

theorem GilPool.not_blocked (hgil : s.gil = none) : ¬ s.Blocked needsGil := by
  rintro ⟨c, call, hgil', -⟩
  rw [hgil] at hgil'
  cases hgil'

theorem Call.begin_chunks_pos (numThreads : ℕ) (ctx : CallContext) (addr : ℕ) (d : Dtype)
    (zero : Elem F d) (input : List (Elem F d)) :
    0 < (Call.begin numThreads ctx addr d zero input).chunks.length ↔ 0 < input.length := by
  have htiles := (Call.begin_shaped numThreads ctx addr d zero input).tiles
  change Tiles input.length 0 _ at htiles
  cases hchunks : (Call.begin numThreads ctx addr d zero input).chunks with
  | nil =>
    rw [hchunks] at htiles
    rw [← show 0 = input.length from htiles]
    simp
  | cons q rest =>
    rw [hchunks] at htiles
    have hbound := (htiles.bounds q List.mem_cons_self).2
    have hpos := htiles.pos q List.mem_cons_self
    simp only [List.length_cons, Nat.zero_lt_succ, true_iff]
    omega

theorem blocked_begin {p' : Pool F M Fn} {numThreads : ℕ} {ctx : CallContext}
    {addr : ℕ} {d : Dtype} {zero : Elem F d} {input : List (Elem F d)}
    (hp' : p' = { s.pool with
      calls := s.pool.calls ++ [.begin numThreads ctx addr d zero input] })
    (himports : p'.AllImport needsGil ↔ s.pool.AllImport needsGil) :
    (⟨p', some s.pool.calls.length⟩ : GilPool F M Fn).Blocked needsGil ↔ 0 < input.length ∧
      s.pool.queueCap ≤ s.pool.queue.length ∧ s.pool.AllImport needsGil := by
  have hcall : p'.calls[s.pool.calls.length]? = some (.begin numThreads ctx addr d zero input) := by
    simp [hp']
  rw [GilPool.blocked_iff_holder rfl hcall, himports,
    ← Call.begin_chunks_pos numThreads ctx addr d zero input, hp']
  rfl

theorem GilInv.blocked_execute (h : GilInv s) {names : Names} {sysPath : List String}
    {array : ArrowArray F} {addr : ℕ}
    (hs : P.gilStep needsGil s (.execute names sysPath array addr) = some s') :
    ¬ s'.Blocked needsGil ↔ GilSafe needsGil s (.execute names sysPath array addr) := by
  have himports : s'.pool.AllImport needsGil ↔ s.pool.AllImport needsGil :=
    allImport_of_step h.accounted (gilStep_step hs) rfl
  simp only [PyWorld.gilStep] at hs
  split at hs
  · obtain ⟨p', hp', rfl⟩ := Option.map_eq_some_iff.mp hs
    unfold Pool.begin at hp'
    dsimp only at hp' himports
    split at hp'
    · unfold GilSafe
      cases array with
      | int64 values | float64 values =>
        have hp'' := (Option.some.inj hp').symm
        have hlen : s.pool.calls.length < p'.calls.length := by simp [hp'']
        rw [if_pos hlen, blocked_begin hp'' himports, not_and, not_and]
        exact imp_congr_right fun _ => le_imp_not_iff
      | other typeName =>
        cases hp'
        apply iff_of_true (GilPool.not_blocked (by simp))
        intro hpos
        cases hpos
    · cases hp'
  · cases hs

theorem GilInv.blocked_call (h : GilInv s) (hb : ¬ s.Blocked needsGil)
    (hs : P.gilStep needsGil s (.call c) = some s') :
    ¬ s'.Blocked needsGil ↔ GilSafe needsGil s (.call c) := by
  have hpool := gilStep_step hs
  have himports : s'.pool.AllImport needsGil ↔ s.pool.AllImport needsGil :=
    allImport_of_step h.accounted hpool rfl
  obtain ⟨call, hcall, hstep⟩ := stepCall_cases hpool
  obtain ⟨call₁, hcall₁, hs⟩ := Option.bind_eq_some_iff.mp hs
  rw [hcall] at hcall₁
  cases hcall₁
  split at hs
  · rename_i hphase
    split at hs
    · rename_i hgil
      obtain ⟨p', hp', rfl⟩ := Option.map_eq_some_iff.mp hs
      dsimp only at hstep himports
      cases hstep with
      | allSent _ hnone =>
        refine iff_of_true (GilPool.not_blocked ?_) fun call' hcall' _ hmore => ?_
        · simp [getElem?_set_some hcall, Call.isSending]
        · rw [hcall] at hcall'
          cases hcall'
          have := List.getElem?_eq_none_iff.mp hnone
          omega
      | sendFailed _ _ hdisc => exact nomatch h.live.connected.symm.trans hdisc
      | @send start len _ hchunk hconn hroom =>
        have hnew : (s.pool.calls.set c { call with done := call.done ++ [none] })[c]? =
            some { call with done := call.done ++ [none] } :=
          (getElem?_set_some hcall).trans (if_pos rfl)
        have hsending : ({ call with done := call.done ++ [none] } : Call F).isSending = true := by
          simp [Call.isSending, hphase]
        rw [GilPool.blocked_iff_holder (c := c) (by simp [hnew, hsending]) hnew, himports]
        change ¬ ((call.done ++ [none]).length < call.chunks.length ∧
          s.pool.queueCap ≤ (s.pool.queue ++ [_]).length ∧ _) ↔ _
        rw [List.length_append, List.length_append, List.length_singleton, List.length_singleton,
          not_and, not_and, le_imp_not_iff]
        constructor
        · intro hor call' hcall' _ hmore
          rw [hcall] at hcall'
          cases hcall'
          exact hor hmore
        · exact fun hsafe => hsafe call hcall (by simp [Call.isSending, hphase])
      | finish hwait | waitOk hwait | waitErr hwait => exact nomatch hphase.symm.trans hwait
    · cases hs
  · rename_i next firstError hphase
    split at hs
    · obtain ⟨p', hp', rfl⟩ := Option.map_eq_some_iff.mp hs
      dsimp only at hstep himports
      refine iff_of_true ?_ fun call' hcall' hsending => ?_
      · rintro ⟨c', call', hgil, hcall', hmore, hfull, hall⟩
        dsimp only at hgil hcall' hfull hall
        have hne : c ≠ c' := by
          rintro rfl
          have hsends := (h.holder c).mp hgil
          simp [Pool.sends, hcall, Call.isSending, hphase] at hsends
        rw [himports] at hall
        cases hstep with
        | allSent hsending | sendFailed hsending | send hsending =>
          exact nomatch hphase.symm.trans hsending
        | finish | waitOk | waitErr =>
          rw [Pool.setCall_calls, List.getElem?_set_ne hne] at hcall'
          exact hb ⟨c', call', hgil, hcall', hmore, hfull, hall⟩
      · rw [hcall] at hcall'
        cases hcall'
        simp [Call.isSending, hphase] at hsending
    · cases hs
  · cases hs

/-- A step blocks the pool exactly if it is not safe. -/
theorem GilInv.blocked_iff (h : GilInv s) (hb : ¬ s.Blocked needsGil) (ha : a.isWork = true)
    (hs : P.gilStep needsGil s a = some s') : ¬ s'.Blocked needsGil ↔ GilSafe needsGil s a := by
  have hpool := gilStep_step hs
  cases a with
  | execute names sysPath array addr => exact h.blocked_execute hs
  | call c => exact h.blocked_call hb hs
  | worker w fault =>
    refine iff_of_true ?_ trivial
    rintro ⟨c, call, hgil, hcall, hmore, hfull, himports⟩
    obtain ⟨wk, hwk, hstep⟩ := stepWorker_cases hpool
    have hlen : s'.pool.workers.length = s.pool.workers.length := by
      obtain ⟨wk', hworkers, -⟩ := hstep.worker
      rw [hworkers, List.length_set]
    have hcases : s'.pool.importsNext needsGil w none = false ∨ _ := hstep.room hwk
    rcases hcases with hnot | hroom
    · have hw := himports w (by rw [hlen]; exact (List.getElem?_eq_some_iff.mp hwk).1)
      exact nomatch hnot.symm.trans hw
    · have := h.live.room
      rw [Pool.queueCap, hlen] at hfull
      rw [Pool.queueCap] at this
      omega
  | shutdownWorkers | shutdown | crash => cases ha

theorem GilInv.init {n : ℕ} (hn : 0 < n) (sysPath : List String) :
    GilInv (⟨Pool.init sysPath (List.replicate n true), none⟩ : GilPool F M Fn) where
  live := by
    refine ⟨by simpa [Pool.init] using hn, fun wk hwk => ?_, fun msg hmsg => ?_, Nat.zero_le _⟩
    · obtain ⟨ok, hok, rfl⟩ := List.mem_map.mp hwk
      rw [List.eq_of_mem_replicate hok]
      rfl
    · cases hmsg
  accounted := .init sysPath _
  shaped := fun c call hc => by simp [Pool.init] at hc
  noOrphan := Pool.noOrphan_init sysPath _
  holder := fun c => by simp [Pool.sends, Pool.init]

/-- **Back-pressure does not stop the pool** in a run whose steps are safe: as long as some
call has not returned, some thread can go on. A further step blocks the dispatcher and all
workers only if it is not safe. -/
theorem backpressure_progress {n : ℕ} (hn : 0 < n) {sysPath : List String} {as : List (PoolAction F)}
    (h : Run (P.gilStep needsGil) (fun s a => a.isWork = true ∧ GilSafe needsGil s a)
      ⟨Pool.init sysPath (List.replicate n true), none⟩ as s) :
    DeadlockFree P needsGil s ∧ ∀ a s', a.isWork = true → P.gilStep needsGil s a = some s' →
      (¬ s'.Blocked needsGil ↔ GilSafe needsGil s a) := by
  obtain ⟨hinv, hb⟩ : GilInv s ∧ ¬ s.Blocked needsGil := by
    refine h.invariant (I := fun s => GilInv s ∧ ¬ s.Blocked needsGil)
      ⟨.init hn sysPath, GilPool.not_blocked rfl⟩ ?_
    rintro s s' a ⟨hinv, hb⟩ ⟨ha, hsafe⟩ hs
    exact ⟨hinv.step ha hs, (hinv.blocked_iff hb ha hs).mpr hsafe⟩
  exact ⟨hinv.deadlockFree hb, fun a s' ha hs => hinv.blocked_iff hb ha hs⟩

theorem gilSafe_of_room (h : s.pool.queue.length + 1 < s.pool.queueCap) (a : PoolAction F) :
    GilSafe needsGil s a := by
  cases a with
  | execute => exact fun _ => .inl (by omega)
  | call => exact fun _ _ _ _ => .inl h
  | worker | shutdownWorkers | shutdown | crash => trivial

end Gil

/-! ## Two runs -/

abbrev DemoGilPool := GilPool (BitVec 64) String Names

/-- A call of `double` on four elements, which become four chunks. -/
def fourChunks (addr : ℕ) : PoolAction (BitVec 64) :=
  .execute ("tasks", "double") [] (.int64 [3, 4, 5, 6]) addr

theorem backpressure_progress_demo : ∃ s : DemoGilPool,
    Run (demoWorld.gilStep fun _ => true) (fun s a => a.isWork = true ∧ GilSafe (fun _ => true) s a)
      ⟨Pool.init [] (List.replicate 1 true), none⟩
      [fourChunks 4096, .call 0, .worker 0 none, .worker 0 none, .call 0, .call 0, .call 0, .call 0,
        .worker 0 none] s ∧ DeadlockFree demoWorld (fun _ => true) s := by
  obtain ⟨s, hs⟩ : ∃ s : DemoGilPool, Run (demoWorld.gilStep fun _ => true)
      (fun s a => a.isWork = true ∧ s.pool.queue.length + 1 < s.pool.queueCap)
      ⟨Pool.init [] (List.replicate 1 true), none⟩
      [fourChunks 4096, .call 0, .worker 0 none, .worker 0 none, .call 0, .call 0, .call 0, .call 0,
        .worker 0 none] s := ⟨_, run_of_exec rfl⟩
  have hsafe : ∀ (s : DemoGilPool) a, a.isWork = true ∧ s.pool.queue.length + 1 < s.pool.queueCap →
      a.isWork = true ∧ GilSafe (fun _ => true) s a := fun s a h => ⟨h.1, gilSafe_of_room h.2 a⟩
  have hrun := hs.mono hsafe
  exact ⟨s, hrun, (backpressure_progress (by decide) hrun).1⟩

/-- No call and no worker can go on, and some call has not returned. -/
def stuck (s : DemoGilPool) : Bool :=
  s.pool.calls.any (!·.returned) &&
    (List.range s.pool.calls.length).all (fun c =>
      (demoWorld.gilStep (fun _ => true) s (.call c)).isNone) &&
    (List.range s.pool.workers.length).all fun w =>
      (demoWorld.gilStep (fun _ => true) s (.worker w none)).isNone

theorem not_deadlockFree_of_stuck {s : DemoGilPool} (h : stuck s = true) :
    ¬ DeadlockFree demoWorld (fun _ => true) s := by
  intro hfree
  simp only [stuck, Bool.and_eq_true, List.any_eq_true, List.all_eq_true, List.mem_range,
    Bool.not_eq_true', Option.isNone_iff_eq_none] at h
  obtain ⟨⟨⟨call, hcall, hret⟩, hcalls⟩, hworkers⟩ := h
  rcases hfree call hcall hret with ⟨c, s', hs⟩ | ⟨w, s', hs⟩
  · obtain ⟨call', hc, -⟩ := Option.bind_eq_some_iff.mp hs
    rw [hcalls c (List.getElem?_eq_some_iff.mp hc).1] at hs
    cases hs
  · obtain ⟨wk, hwk, -⟩ := stepWorker_cases (gilStep_step hs)
    rw [hworkers w (List.getElem?_eq_some_iff.mp hwk).1] at hs
    cases hs

/-- The worker has a task whose import needs the GIL when the third call, with the GIL, finds
the channel full. -/
theorem backpressure_deadlock : ∃ s : DemoGilPool,
    Run (demoWorld.gilStep fun _ => true) (fun _ a => a.isWork = true)
      ⟨Pool.init [] (List.replicate 1 true), none⟩
      [fourChunks 4096, .call 0, .worker 0 none, .worker 0 none, .call 0, .call 0, .call 0, .call 0,
        fourChunks 8192, .call 1, .call 1, .call 1, .call 1, .call 1, fourChunks 12288, .call 2] s ∧
      ¬ DeadlockFree demoWorld (fun _ => true) s := by
  have hexec : (exec (demoWorld.gilStep fun _ => true) (fun _ a => a.isWork = true)
      ⟨Pool.init [] (List.replicate 1 true), none⟩
      [fourChunks 4096, .call 0, .worker 0 none, .worker 0 none, .call 0, .call 0, .call 0, .call 0,
        fourChunks 8192, .call 1, .call 1, .call 1, .call 1, .call 1, fourChunks 12288,
        .call 2]).any stuck = true := by decide +kernel
  obtain ⟨s, hs, hstuck⟩ := (Option.any_eq_true _ _).mp hexec
  exact ⟨s, run_of_exec hs, not_deadlockFree_of_stuck hstuck⟩

end Gilmap
