import Gilmap.Pool.Model

/-! # What one step of the pool does

Each thread's step by cases, with the guards under which the case is taken, and what every
step leaves alone: the other workers, and of a call all but its results, slots and phase.
-/
namespace Gilmap
open Library
variable {F M Fn Obj : Type} {P : PyWorld F M Fn Obj} {s s' : Pool F M Fn}

/-! ## Steps by cases -/

/-- The cases of `Pool.stepCall`. -/
inductive CallStep (s : Pool F M Fn) (c : ℕ) (call : Call F) : Pool F M Fn → Prop
  | allSent : call.phase = .sending → call.chunks[call.done.length]? = none →
      CallStep s c call (s.setCall c { call with phase := .waiting 0 none })
  | sendFailed {chunk : ℕ × ℕ} : call.phase = .sending →
      call.chunks[call.done.length]? = some chunk → s.disconnected = true →
      CallStep s c call (s.setCall c { call with phase := .returned (.error sendError) })
  | send {start len : ℕ} : call.phase = .sending →
      call.chunks[call.done.length]? = some (start, len) → s.disconnected = false →
      s.queue.length < s.queueCap →
      CallStep s c call { s.setCall c { call with done := call.done ++ [none] } with
        queue := s.queue ++ [.task ⟨c, call.done.length, start, len⟩] }
  | finish {next : ℕ} {firstError : Option String} : call.phase = .waiting next firstError →
      call.done[next]? = none →
      CallStep s c call
        (s.setCall c { call with phase := .returned (waitResult firstError call.results) })
  | waitOk {next : ℕ} {firstError : Option String} : call.phase = .waiting next firstError →
      call.done[next]? = some (some (.ok ())) →
      CallStep s c call (s.setCall c { call with phase := .waiting (next + 1) firstError })
  | waitErr {next : ℕ} {firstError : Option String} {err : String} :
      call.phase = .waiting next firstError → call.done[next]? = some (some (.error err)) →
      CallStep s c call
        (s.setCall c { call with phase := .waiting (next + 1) (some (firstError.getD err)) })

theorem stepCall_cases {c : ℕ} (h : s.stepCall c = some s') :
    ∃ call, s.calls[c]? = some call ∧ CallStep s c call s' := by
  obtain ⟨call, hcall, h⟩ := Option.bind_eq_some_iff.mp h
  refine ⟨call, hcall, ?_⟩
  split at h
  · rename_i hphase
    split at h
    · cases h
      exact .allSent hphase ‹_›
    · rename_i start len hchunk
      split at h
      · cases h
        exact .sendFailed hphase hchunk ‹_›
      · split at h
        · cases h
          exact .send hphase hchunk (Bool.eq_false_iff.mpr ‹_›) ‹_›
        · cases h
  · rename_i next firstError hphase
    split at h
    · cases h
      exact .finish hphase ‹_›
    · cases h
    · cases h
      exact .waitOk hphase ‹_›
    · cases h
      exact .waitErr hphase ‹_›
  · cases h

/-- The cases of `Pool.stepWorker`. -/
inductive WorkerStep (P : PyWorld F M Fn Obj) (s : Pool F M Fn) (w : ℕ) (fault : Option (ℕ × String))
    (wk : Worker M Fn) : Pool F M Fn → Prop
  | started : wk.phase = .starting → wk.startsOk = true → WorkerStep P s w fault wk (s.setPhase w wk .idle)
  | startFailed : wk.phase = .starting → wk.startsOk = false → WorkerStep P s w fault wk (s.exit w wk)
  | recvShutdown {rest : List WorkerMessage} : wk.phase = .idle → s.queue = .shutdown :: rest →
      WorkerStep P s w fault wk ({ s with queue := rest }.setWorker w
        { wk with phase := .exiting, cache := { wk.cache with funcCache := [] } })
  | recvTask {t : Task} {rest : List WorkerMessage} : wk.phase = .idle → s.queue = .task t :: rest →
      WorkerStep P s w fault wk ({ s with queue := rest }.setPhase w wk (.resolving t))
  | resolved {t : Task} {call : Call F} {func : Fn} {cache : WorkerCache M Fn} :
      wk.phase = .resolving t → s.calls[t.call]? = some call →
      P.lookup w fault call.ctx call.addr wk.cache = (.ok func, cache) →
      WorkerStep P s w fault wk
        (s.setWorker w { wk with phase := .running t func 0, cache := cache })
  | resolveFailed {t : Task} {call : Call F} {e : String} {cache : WorkerCache M Fn} :
      wk.phase = .resolving t → s.calls[t.call]? = some call →
      P.lookup w fault call.ctx call.addr wk.cache = (.error e, cache) →
      WorkerStep P s w fault wk
        (s.setWorker w { wk with phase := .finishing t (.error (workerError e)), cache := cache })
  | element {t : Task} {func : Fn} {next : ℕ} {call : Call F} {val res : Elem F call.dtype} :
      wk.phase = .running t func next → s.calls[t.call]? = some call → next < t.len →
      call.input[t.start + next]? = some val →
      perElement P.fl P.toPyObjects call.dtype func val = .ok res →
      WorkerStep P s w fault wk
        ((s.setCall t.call { call with results := call.results.set (t.start + next) res }).setPhase
          w wk (.running t func (next + 1)))
  | elementFailed {t : Task} {func : Fn} {next : ℕ} {call : Call F} {val : Elem F call.dtype}
      {e : String} :
      wk.phase = .running t func next → s.calls[t.call]? = some call → next < t.len →
      call.input[t.start + next]? = some val →
      perElement P.fl P.toPyObjects call.dtype func val = .error e →
      WorkerStep P s w fault wk (s.setPhase w wk (.finishing t (.error (workerError e))))
  | elementsDone {t : Task} {func : Fn} {next : ℕ} {call : Call F} :
      wk.phase = .running t func next → s.calls[t.call]? = some call → ¬ next < t.len →
      WorkerStep P s w fault wk (s.setPhase w wk (.finishing t (.ok ())))
  | finish {t : Task} {result : TaskResult} {call : Call F} :
      wk.phase = .finishing t result → s.calls[t.call]? = some call →
      WorkerStep P s w fault wk
        ((s.setCall t.call { call with done := call.done.set t.slot (some result) }).setPhase w wk
          (.releasing t))
  | release {t : Task} : wk.phase = .releasing t → WorkerStep P s w fault wk (s.setPhase w wk .idle)
  | exit : wk.phase = .exiting → WorkerStep P s w fault wk (s.exit w wk)

theorem stepWorker_cases {w : ℕ} {fault : Option (ℕ × String)}
    (h : s.stepWorker P w fault = some s') :
    ∃ wk, s.workers[w]? = some wk ∧ WorkerStep P s w fault wk s' := by
  obtain ⟨wk, hwk, h⟩ := Option.bind_eq_some_iff.mp h
  refine ⟨wk, hwk, ?_⟩
  split at h
  · rename_i hphase
    cases hok : wk.startsOk <;> simp only [hok, Bool.false_eq_true, if_false, if_true] at h <;> cases h
    · exact .startFailed hphase hok
    · exact .started hphase hok
  · rename_i hphase
    split at h
    · cases h
    · cases h
      exact .recvShutdown hphase ‹_›
    · cases h
      exact .recvTask hphase ‹_›
  · rename_i t hphase
    obtain ⟨call, hcall, h⟩ := Option.bind_eq_some_iff.mp h
    split at h
    · cases h
      exact .resolved hphase hcall ‹_›
    · cases h
      exact .resolveFailed hphase hcall ‹_›
  · rename_i t func next hphase
    obtain ⟨call, hcall, h⟩ := Option.bind_eq_some_iff.mp h
    split at h
    · rename_i hlt
      obtain ⟨val, hval, h⟩ := Option.bind_eq_some_iff.mp h
      split at h
      · cases h
        exact .element hphase hcall hlt hval ‹_›
      · cases h
        exact .elementFailed hphase hcall hlt hval ‹_›
    · cases h
      exact .elementsDone hphase hcall ‹_›
  · rename_i t result hphase
    obtain ⟨call, hcall, h⟩ := Option.bind_eq_some_iff.mp h
    cases h
    exact .finish hphase hcall
  · cases h
    exact .release ‹_›
  · cases h
    exact .exit ‹_›
  · cases h

/-- The cases of `Pool.stepShutdown`; none touches a worker or a call. -/
inductive ShutdownStep (s : Pool F M Fn) : Pool F M Fn → Prop
  | quiet (shutdowns : List ShutdownPhase) : ShutdownStep s { s with shutdowns := shutdowns }
  | send (shutdowns : List ShutdownPhase) : s.disconnected = false →
      s.queue.length < s.queueCap →
      ShutdownStep s { s with shutdowns := shutdowns, queue := s.queue ++ [.shutdown] }

theorem stepShutdown_cases {k : ℕ} (h : s.stepShutdown k = some s') : ShutdownStep s s' := by
  obtain ⟨phase, -, h⟩ := Option.bind_eq_some_iff.mp h
  split at h
  · split at h
    · split at h
      · cases h
        exact .quiet _
      · split at h
        · cases h
          exact .send _ (Bool.eq_false_iff.mpr ‹_›) ‹_›
        · cases h
    · cases h
      exact .quiet _
  · split at h
    · cases h
      exact .quiet _
    · split at h
      · cases h
        exact .quiet _
      · cases h
  · cases h

theorem crash_cases {w : ℕ} (h : s.crash w = some s') :
    ∃ wk, s.workers[w]? = some wk ∧ s' = s.exit w wk := by
  obtain ⟨wk, hwk, h⟩ := Option.bind_eq_some_iff.mp h
  refine ⟨wk, hwk, ?_⟩
  split at h <;> cases h <;> rfl

theorem begin_cases {names : Names} {sysPath : List String} {array : ArrowArray F} {addr : ℕ}
    (h : s.begin P names sysPath array addr = some s') : s.addrFree addr = true ∧
      (s' = s ∨ ∃ d zero input, s' = { s with calls := s.calls ++ [.begin s.workers.length
        ⟨names.1, names.2, sysPath, P.sysPathId sysPath⟩ addr d zero input] }) := by
  unfold Pool.begin at h
  dsimp only at h
  split at h
  · rename_i hfree
    refine ⟨hfree, ?_⟩
    split at h <;> cases h
    · exact .inr ⟨.i64, 0, _, rfl⟩
    · exact .inr ⟨.f64, P.fl.zero, _, rfl⟩
    · exact .inl rfl
  · cases h

/-! ## What the updates change -/

namespace Pool
variable {c w : ℕ} {call : Call F} {wk : Worker M Fn} {phase : WorkerPhase Fn}

@[simp] theorem setCall_workers : (s.setCall c call).workers = s.workers := rfl
@[simp] theorem setCall_queue : (s.setCall c call).queue = s.queue := rfl
@[simp] theorem setCall_calls : (s.setCall c call).calls = s.calls.set c call := rfl
@[simp] theorem setWorker_workers : (s.setWorker w wk).workers = s.workers.set w wk := rfl
@[simp] theorem setWorker_queue : (s.setWorker w wk).queue = s.queue := rfl
@[simp] theorem setWorker_calls : (s.setWorker w wk).calls = s.calls := rfl
@[simp] theorem setPhase_workers :
    (s.setPhase w wk phase).workers = s.workers.set w { wk with phase := phase } := rfl
@[simp] theorem setPhase_queue : (s.setPhase w wk phase).queue = s.queue := rfl
@[simp] theorem setPhase_calls : (s.setPhase w wk phase).calls = s.calls := rfl

@[simp] theorem exit_workers : (s.exit w wk).workers = s.workers.set w { wk with phase := .exited } := by
  unfold exit
  dsimp only
  split <;> rfl

@[simp] theorem exit_calls : (s.exit w wk).calls = s.calls := by
  unfold exit
  dsimp only
  split <;> rfl

theorem exit_queue (s : Pool F M Fn) (w : ℕ) (wk : Worker M Fn) :
    (s.exit w wk).queue = s.queue ∨ (s.exit w wk).queue = [] := by
  unfold exit
  dsimp only
  split
  · exact .inr rfl
  · exact .inl rfl

end Pool

theorem Pool.connected_of {w : ℕ} {wk : Worker M Fn} (hwk : s.workers[w]? = some wk)
    (h : wk.phase.isExited = false) : s.disconnected = false :=
  List.all_eq_false.mpr ⟨wk, List.mem_of_getElem? hwk, by simp [h]⟩

/-- The worker whose step an action is. -/
def PoolAction.worker? : PoolAction F → Option ℕ
  | .worker w _ | .crash w => some w
  | .execute _ _ _ _ | .call _ | .shutdownWorkers | .shutdown _ => none

theorem CallStep.workers {c : ℕ} {call : Call F} (h : CallStep s c call s') :
    s'.workers = s.workers := by
  cases h <;> rfl

theorem WorkerStep.others {w i : ℕ} {fault : Option (ℕ × String)} {wk : Worker M Fn}
    (h : WorkerStep P s w fault wk s') (hi : w ≠ i) : s'.workers[i]? = s.workers[i]? := by
  cases h <;> simp [List.getElem?_set_ne hi]

/-- A step changes no worker but its own. -/
theorem step_others {a : PoolAction F} {i : ℕ} (h : P.step s a = some s') (hi : a.worker? ≠ some i) :
    s'.workers[i]? = s.workers[i]? := by
  cases a with
  | execute names sysPath array addr =>
    obtain ⟨-, rfl | ⟨d, zero, input, rfl⟩⟩ := begin_cases h <;> rfl
  | call c =>
    obtain ⟨call, -, h⟩ := stepCall_cases h
    rw [h.workers]
  | worker w fault =>
    obtain ⟨wk, -, h⟩ := stepWorker_cases h
    exact h.others fun he => hi (by rw [← he]; rfl)
  | shutdownWorkers =>
    cases h
    rfl
  | shutdown k => cases stepShutdown_cases h <;> rfl
  | crash w =>
    obtain ⟨wk, -, rfl⟩ := crash_cases h
    simp [List.getElem?_set_ne (show w ≠ i from fun he => hi (by rw [← he]; rfl))]

/-- How a worker comes to run a function: its lookup has just returned it, or it has run it on. -/
inductive ComesToRun (P : PyWorld F M Fn Obj) (s s' : Pool F M Fn) (a : PoolAction F) (w : ℕ)
    (cache' : WorkerCache M Fn) (t : Task) (func : Fn) : Prop
  | resolved {fault : Option (ℕ × String)} {wk : Worker M Fn} {call : Call F} : a = .worker w fault →
      s.workers[w]? = some wk → wk.phase = .resolving t → s.calls[t.call]? = some call →
      P.lookup w fault call.ctx call.addr wk.cache = (.ok func, cache') → s'.calls = s.calls →
      ComesToRun P s s' a w cache' t func
  | running {wk : Worker M Fn} {next : ℕ} : s.workers[w]? = some wk →
      wk.phase = .running t func next → cache' = wk.cache → ComesToRun P s s' a w cache' t func

theorem running_of_step {a : PoolAction F} {w next : ℕ} {wk' : Worker M Fn} {t : Task} {func : Fn}
    (hs : P.step s a = some s') (hwk' : s'.workers[w]? = some wk')
    (hphase' : wk'.phase = .running t func next) : ComesToRun P s s' a w wk'.cache t func := by
  by_cases ha : a.worker? = some w
  · cases a with
    | worker w' fault =>
      cases ha
      obtain ⟨wk, hwk, hstep⟩ := stepWorker_cases hs
      cases hstep with
      | resolved hphase hcall hl =>
        cases getElem?_set_self_some hwk hwk'
        cases hphase'
        exact .resolved rfl hwk hphase hcall hl rfl
      | element hphase hcall =>
        cases getElem?_set_self_some hwk hwk'
        cases hphase'
        exact .running hwk hphase rfl
      | startFailed | exit =>
        rw [Pool.exit_workers] at hwk'
        cases getElem?_set_self_some hwk hwk'
        cases hphase'
      | started | recvShutdown | recvTask | resolveFailed | elementFailed | elementsDone | finish
      | release =>
        cases getElem?_set_self_some hwk hwk'
        cases hphase'
    | crash w' =>
      cases ha
      obtain ⟨wk, hwk, rfl⟩ := crash_cases hs
      rw [Pool.exit_workers] at hwk'
      cases getElem?_set_self_some hwk hwk'
      cases hphase'
    | execute | call | shutdownWorkers | shutdown => cases ha
  · rw [step_others hs ha] at hwk'
    exact .running hwk' hphase' rfl

/-- `call'` is the same run of `execute` as `call`, at another moment. -/
def Call.Same (call call' : Call F) : Prop :=
  ∃ results done phase, call' = { call with results := results, done := done, phase := phase }

theorem Call.Same.refl (call : Call F) : call.Same call := ⟨_, _, _, rfl⟩

theorem Call.Same.ctx {call call' : Call F} (h : call.Same call') : call'.ctx = call.ctx := by
  obtain ⟨r, d, p, rfl⟩ := h
  rfl

/-- `call'` is `call` at a later moment: no slot is taken back. -/
def Call.Later (call call' : Call F) : Prop :=
  call.Same call' ∧ call.done.length ≤ call'.done.length

theorem Call.Later.refl (call : Call F) : call.Later call := ⟨.refl _, le_rfl⟩

theorem setCall_later {c c' : ℕ} {call call' call'' : Call F} (hc : s.calls[c]? = some call)
    (hlater : call.Later call') (h : s.calls[c']? = some call'') :
    ∃ call₁, (s.calls.set c call')[c']? = some call₁ ∧ call''.Later call₁ := by
  rw [getElem?_set_some hc]
  split
  · rename_i he
    subst he
    rw [hc] at h
    cases h
    exact ⟨call', rfl, hlater⟩
  · exact ⟨call'', h, .refl _⟩

/-- A call goes on under its number. -/
theorem step_calls {a : PoolAction F} {c : ℕ} {call : Call F} (h : P.step s a = some s')
    (hc : s.calls[c]? = some call) : ∃ call', s'.calls[c]? = some call' ∧ call.Later call' := by
  cases a with
  | execute names sysPath array addr =>
    obtain ⟨-, rfl | ⟨d, zero, input, rfl⟩⟩ := begin_cases h
    · exact ⟨call, hc, .refl _⟩
    · refine ⟨call, ?_, .refl _⟩
      rw [List.getElem?_append_left (List.getElem?_eq_some_iff.mp hc).1]
      exact hc
  | call c' =>
    obtain ⟨call₁, hcall, h⟩ := stepCall_cases h
    cases h <;> exact setCall_later hcall ⟨⟨_, _, _, rfl⟩, by simp⟩ hc
  | worker w fault =>
    obtain ⟨wk, -, h⟩ := stepWorker_cases h
    cases h with
    | element _ hcall | finish _ hcall => exact setCall_later hcall ⟨⟨_, _, _, rfl⟩, by simp⟩ hc
    | startFailed | exit => exact ⟨call, by simpa using hc, .refl _⟩
    | started | recvShutdown | recvTask | resolved | resolveFailed | elementFailed | elementsDone
    | release => exact ⟨call, hc, .refl _⟩
  | shutdownWorkers =>
    cases h
    exact ⟨call, hc, .refl _⟩
  | shutdown k => cases stepShutdown_cases h <;> exact ⟨call, hc, .refl _⟩
  | crash w =>
    obtain ⟨wk, -, rfl⟩ := crash_cases h
    exact ⟨call, by simpa using hc, .refl _⟩

/-- The call to which a task belongs, with its chunk sent. -/
def TaskAt (calls : List (Call F)) (t : Task) (call : Call F) : Prop :=
  calls[t.call]? = some call ∧ call.chunks[t.slot]? = some (t.start, t.len) ∧
    t.slot < call.done.length

theorem TaskAt.step {a : PoolAction F} {t : Task} {call : Call F} (h : TaskAt s.calls t call)
    (hs : P.step s a = some s') : ∃ call', TaskAt s'.calls t call' := by
  obtain ⟨hcall, hchunk, hslot⟩ := h
  obtain ⟨call', hcall', ⟨_, _, _, rfl⟩, hlater⟩ := step_calls hs hcall
  exact ⟨_, hcall', hchunk, hslot.trans_le hlater⟩

/-- A call and a slot belong to one task. -/
theorem TaskAt.unique {calls : List (Call F)} {t t' : Task} {call call' : Call F}
    (h : TaskAt calls t call) (h' : TaskAt calls t' call') (hcall : t.call = t'.call)
    (hslot : t.slot = t'.slot) : t = t' := by
  obtain ⟨c, k, start, len⟩ := t
  obtain ⟨c', k', start', len'⟩ := t'
  cases hcall
  cases hslot
  have hsame := h.1.symm.trans h'.1
  cases hsame
  have hchunk := h.2.1.symm.trans h'.2.1
  cases hchunk
  rfl

end Gilmap
