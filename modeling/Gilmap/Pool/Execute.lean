import Gilmap.Pool.FunctionCache

/-! # `execute` is the sequential map

As long as nobody shuts the pool down and every worker resolves a call's names to the same
pure function, each output slot that has been written holds the function's value, each done
slot tells how the chunk ended, and the dispatcher picks the first error in chunk order.
-/
namespace Gilmap
open Library
variable {F M Fn Obj : Type}

/-! ## The sequential loop -/

section MapM
variable {α β ε : Type} {f : α → Except ε β} {xs : List α}

theorem mapM_eq_ok {ys : List β} (hlen : ys.length = xs.length)
    (h : ∀ i < xs.length, ∃ x y, xs[i]? = some x ∧ f x = .ok y ∧ ys[i]? = some y) :
    xs.mapM f = .ok ys := by
  induction xs generalizing ys with
  | nil =>
    rw [List.length_eq_zero_iff.mp hlen]
    rfl
  | cons a xs ih =>
    cases ys with
    | nil => cases hlen
    | cons b ys =>
      obtain ⟨x, y, hx, hf, hy⟩ := h 0 (by simp)
      cases hx
      cases hy
      have hrest := ih (by simpa using hlen) fun i hi => h (i + 1) (by simpa using hi)
      simp only [List.mapM_cons, hf, hrest]
      rfl

theorem mapM_eq_error {i : ℕ} {x : α} {e : ε} (hx : xs[i]? = some x) (he : f x = .error e)
    (h : ∀ j < i, ∃ a b, xs[j]? = some a ∧ f a = .ok b) : xs.mapM f = .error e := by
  induction xs generalizing i with
  | nil => cases hx
  | cons a xs ih =>
    cases i with
    | zero =>
      cases hx
      simp only [List.mapM_cons, he]
      rfl
    | succ i =>
      obtain ⟨a', b, ha, hb⟩ := h 0 (by omega)
      cases ha
      have hrest := ih (by simpa using hx) fun j hj => h (j + 1) (by omega)
      simp only [List.mapM_cons, hb, hrest]
      rfl

end MapM

/-- The pure functions that calls name, on the elements of each lane. -/
abbrev PureFunctions (F : Type) := Names → (d : Dtype) → Elem F d → Except String (Elem F d)

/-- `func` at one element after the other, up to the first exception. -/
def Call.sequential (f : PureFunctions F) (call : Call F) :
    Except String (List (Elem F call.dtype)) :=
  (call.input.mapM (f call.ctx.names call.dtype)).mapError workerError

/-! ## What the buffers and slots of a call hold -/

/-- The output slot `i` holds the function's value. -/
def RightAt (f : PureFunctions F) (call : Call F) (i : ℕ) : Prop :=
  ∃ val res, call.input[i]? = some val ∧ f call.ctx.names call.dtype val = .ok res ∧
    call.results[i]? = some res

/-- What the result of a chunk says about it. -/
def ChunkResult (f : PureFunctions F) (call : Call F) (start len : ℕ) : TaskResult → Prop
  | .ok () => ∀ j < len, RightAt f call (start + j)
  | .error msg => ∃ j < len, (∀ i < j, RightAt f call (start + i)) ∧
    ∃ val e, call.input[start + j]? = some val ∧ f call.ctx.names call.dtype val = .error e ∧
      msg = workerError e

/-- `firstError` is the first error in the first `next` slots. -/
def Waited (done : List (Option TaskResult)) (next : ℕ) : Option String → Prop
  | none => ∀ k < next, done[k]? = some (some (.ok ()))
  | some msg => ∃ k < next, (∀ i < k, done[i]? = some (some (.ok ()))) ∧
    done[k]? = some (some (.error msg))

/-- Where a call is, with `sent` chunks in all and the result `spec` it should have. -/
def PhaseOk {α : Type} (spec : Except String α) (sent : ℕ) (done : List (Option TaskResult)) :
    CallPhase α → Prop
  | .sending => True
  | .waiting next firstError => done.length = sent ∧ Waited done next firstError
  | .returned result => result = spec

structure CallOk (f : PureFunctions F) (call : Call F) : Prop where
  lengths : call.results.length = call.input.length
  tiles : Tiles call.input.length 0 call.chunks
  sent : call.done.length ≤ call.chunks.length
  slots : ∀ (k : ℕ) r start len, call.done[k]? = some (some r) → call.chunks[k]? = some (start, len) →
    ChunkResult f call start len r
  phase : PhaseOk (call.sequential f) call.chunks.length call.done call.phase

/-- `call'` is `call` later on. -/
structure Call.Grows (f : PureFunctions F) (call call' : Call F) : Prop where
  same : call.Same call'
  right : ∀ i, RightAt f call i → RightAt f call' i
  sent : call.done.length ≤ call'.done.length

section Calls
variable {f : PureFunctions F} {call call' : Call F} {start len : ℕ}

theorem Call.Grows.refl (f : PureFunctions F) (call : Call F) : call.Grows f call :=
  ⟨.refl _, fun _ h => h, le_rfl⟩

theorem ChunkResult.grows {r : TaskResult} (hg : call.Grows f call')
    (h : ChunkResult f call start len r) : ChunkResult f call' start len r := by
  obtain ⟨⟨results, done, phase, rfl⟩, hright, -⟩ := hg
  cases r with
  | ok u => exact fun j hj => hright _ (h j hj)
  | error msg =>
    obtain ⟨j, hj, hbefore, hfail⟩ := h
    exact ⟨j, hj, fun i hi => hright _ (hbefore i hi), hfail⟩

theorem RightAt.ok {i : ℕ} (h : RightAt f call i) :
    ∃ a b, call.input[i]? = some a ∧ f call.ctx.names call.dtype a = .ok b := by
  obtain ⟨val, res, hval, hf, -⟩ := h
  exact ⟨val, res, hval, hf⟩

/-- The elements before a chunk are right once the chunks before it have succeeded. -/
theorem CallOk.right_before (h : CallOk f call) {k i : ℕ}
    (hdone : ∀ j < k, call.done[j]? = some (some (.ok ())))
    (hi : i < match call.chunks[k]? with
      | some p => p.1
      | none => call.input.length) : RightAt f call i := by
  obtain ⟨j, hj, p, hp, hle, hlt⟩ := h.tiles.covers (Nat.zero_le i) hi
  have hchunk := h.slots j _ p.1 p.2 (hdone j hj) hp (i - p.1) (by omega)
  rwa [show p.1 + (i - p.1) = i by omega] at hchunk

/-- What `wait_for_tasks` has found when it has seen every chunk. -/
theorem CallOk.finish (h : CallOk f call) {next : ℕ} {firstError : Option String}
    (hphase : call.phase = .waiting next firstError) (hend : call.done[next]? = none) :
    waitResult firstError call.results = call.sequential f := by
  obtain ⟨hall, hwaited⟩ : call.done.length = call.chunks.length ∧
      Waited call.done next firstError := by
    have hp := h.phase
    rwa [hphase] at hp
  have hnext : call.chunks.length ≤ next := by
    rw [← hall]
    exact List.getElem?_eq_none_iff.mp hend
  cases firstError with
  | none =>
    have hmap : call.input.mapM (f call.ctx.names call.dtype) = .ok call.results := by
      apply mapM_eq_ok h.lengths
      intro i hi
      refine h.right_before (k := next) hwaited ?_
      rw [List.getElem?_eq_none_iff.mpr hnext]
      exact hi
    rw [Call.sequential, hmap]
    rfl
  | some msg =>
    obtain ⟨k, hk, hbefore, hslot⟩ := hwaited
    have hlt : k < call.chunks.length := by
      rw [← hall]
      exact (List.getElem?_eq_some_iff.mp hslot).1
    obtain ⟨⟨start, len⟩, hchunk⟩ : ∃ p, call.chunks[k]? = some p := ⟨_, List.getElem?_eq_getElem hlt⟩
    obtain ⟨j, hj, hright, val, e, hval, he, rfl⟩ := h.slots k _ start len hslot hchunk
    have hmap : call.input.mapM (f call.ctx.names call.dtype) = .error e := by
      apply mapM_eq_error hval he
      intro i hi
      by_cases his : i < start
      · refine (h.right_before (k := k) hbefore ?_).ok
        rw [hchunk]
        exact his
      · have hchunk := hright (i - start) (by omega)
        rw [show start + (i - start) = i by omega] at hchunk
        exact hchunk.ok
    rw [Call.sequential, hmap]
    rfl

/-- The write of a right value. -/
theorem Call.Grows.write {i : ℕ} {val res : Elem F call.dtype} (hval : call.input[i]? = some val)
    (hf : f call.ctx.names call.dtype val = .ok res) (hlen : call.results.length = call.input.length) :
    call.Grows f { call with results := call.results.set i res } ∧
      RightAt f { call with results := call.results.set i res } i := by
  have hlt : i < call.results.length := by
    rw [hlen]
    exact (List.getElem?_eq_some_iff.mp hval).1
  have hself : RightAt f { call with results := call.results.set i res } i :=
    ⟨val, res, hval, hf, by simp [hlt]⟩
  refine ⟨⟨⟨_, _, _, rfl⟩, fun j hj => ?_, le_rfl⟩, hself⟩
  by_cases hij : i = j
  · exact hij ▸ hself
  · obtain ⟨val', res', hval', hf', hres'⟩ := hj
    exact ⟨val', res', hval', hf', by simpa [List.getElem?_set_ne hij] using hres'⟩

theorem CallOk.write (h : CallOk f call) {i : ℕ} {val res : Elem F call.dtype}
    (hval : call.input[i]? = some val) (hf : f call.ctx.names call.dtype val = .ok res) :
    CallOk f { call with results := call.results.set i res } := by
  have hg := (Call.Grows.write hval hf h.lengths).1
  refine ⟨by simpa using h.lengths, h.tiles, h.sent,
    fun k r start len hd hc => (h.slots k r start len hd hc).grows hg, ?_⟩
  exact h.phase

/-- Only the phase changes. -/
theorem CallOk.setPhase (h : CallOk f call) {phase : CallPhase (List (Elem F call.dtype))}
    (hp : PhaseOk (call.sequential f) call.chunks.length call.done phase) :
    CallOk f { call with phase := phase } ∧ call.Grows f { call with phase := phase } := by
  have hg : call.Grows f { call with phase := phase } := ⟨⟨_, _, _, rfl⟩, fun _ h => h, le_rfl⟩
  exact ⟨⟨h.lengths, h.tiles, h.sent,
    fun k r start len hd hc => (h.slots k r start len hd hc).grows hg, hp⟩, hg⟩

/-- A chunk is sent. -/
theorem CallOk.send (h : CallOk f call) (hphase : call.phase = .sending)
    (hmore : call.done.length < call.chunks.length) :
    CallOk f { call with done := call.done ++ [none] } ∧
      call.Grows f { call with done := call.done ++ [none] } := by
  have hg : call.Grows f { call with done := call.done ++ [none] } :=
    ⟨⟨_, _, _, rfl⟩, fun _ h => h, by simp⟩
  refine ⟨⟨h.lengths, h.tiles, by simpa using hmore, fun k r start len hd hc => ?_, ?_⟩, hg⟩
  · rcases List.getElem?_eq_some_iff.mp hd with ⟨hk, hd'⟩
    by_cases hold : k < call.done.length
    · have hd₀ : call.done[k]? = some (some r) := by
        rwa [List.getElem?_append_left hold] at hd
      exact (h.slots k r start len hd₀ hc).grows hg
    · rw [List.getElem?_append_right (by omega)] at hd
      cases hk' : k - call.done.length <;> simp [hk'] at hd
  · change PhaseOk _ _ _ call.phase
    rw [hphase]
    trivial

/-- An element that has failed is not right. -/
theorem RightAt.not_error {i : ℕ} {val : Elem F call.dtype} {e : String} (h : RightAt f call i)
    (hval : call.input[i]? = some val) : f call.ctx.names call.dtype val ≠ .error e := by
  obtain ⟨val', res, hval', hf, -⟩ := h
  rw [hval] at hval'
  cases hval'
  rw [hf]
  exact fun h => nomatch h

/-- A chunk has one result. -/
theorem ChunkResult.unique {r r' : TaskResult} (h : ChunkResult f call start len r)
    (h' : ChunkResult f call start len r') : r = r' := by
  cases r with
  | ok u =>
    cases r' with
    | ok u' => rfl
    | error msg' =>
      obtain ⟨j, hj, -, val, e, hval, he, -⟩ := h'
      exact absurd he ((h j hj).not_error hval)
  | error msg =>
    obtain ⟨j, hj, hright, val, e, hval, he, rfl⟩ := h
    cases r' with
    | ok u' => exact absurd he ((h' j hj).not_error hval)
    | error msg' =>
      obtain ⟨j', hj', hright', val', e', hval', he', rfl⟩ := h'
      rcases Nat.lt_trichotomy j j' with hlt | rfl | hlt
      · exact absurd he ((hright' j hlt).not_error hval)
      · rw [hval] at hval'
        cases hval'
        rw [he] at he'
        cases he'
        rfl
      · exact absurd he' ((hright j' hlt).not_error hval')

theorem Waited.mono {done done' : List (Option TaskResult)} {next : ℕ} {firstError : Option String}
    (h : Waited done next firstError)
    (hkeep : ∀ (k : ℕ) r, done[k]? = some (some r) → done'[k]? = some (some r)) :
    Waited done' next firstError := by
  cases firstError with
  | none => exact fun k hk => hkeep k _ (h k hk)
  | some msg =>
    obtain ⟨k, hk, hbefore, hslot⟩ := h
    exact ⟨k, hk, fun i hi => hkeep i _ (hbefore i hi), hkeep k _ hslot⟩

theorem Waited.ok {done : List (Option TaskResult)} {next : ℕ} {firstError : Option String}
    (h : Waited done next firstError) (hslot : done[next]? = some (some (.ok ()))) :
    Waited done (next + 1) firstError := by
  cases firstError with
  | none =>
    intro k hk
    rcases Nat.lt_succ_iff_lt_or_eq.mp hk with hlt | rfl
    · exact h k hlt
    · exact hslot
  | some msg =>
    obtain ⟨k, hk, hbefore, hfound⟩ := h
    exact ⟨k, by omega, hbefore, hfound⟩

theorem Waited.error {done : List (Option TaskResult)} {next : ℕ} {firstError : Option String}
    {err : String} (h : Waited done next firstError)
    (hslot : done[next]? = some (some (.error err))) :
    Waited done (next + 1) (some (firstError.getD err)) := by
  cases firstError with
  | none => exact ⟨next, by omega, h, hslot⟩
  | some msg =>
    obtain ⟨k, hk, hbefore, hfound⟩ := h
    exact ⟨k, by omega, hbefore, hfound⟩

/-- A worker fills a slot; a slot that was filled before gets the same result again. -/
theorem CallOk.fill (h : CallOk f call) {slot : ℕ} {r : TaskResult}
    (hchunk : call.chunks[slot]? = some (start, len)) (hr : ChunkResult f call start len r) :
    CallOk f { call with done := call.done.set slot (some r) } ∧
      call.Grows f { call with done := call.done.set slot (some r) } := by
  have hg : call.Grows f { call with done := call.done.set slot (some r) } :=
    ⟨⟨_, _, _, rfl⟩, fun _ h => h, by simp⟩
  have hkeep : ∀ (k : ℕ) r', call.done[k]? = some (some r') →
      (call.done.set slot (some r))[k]? = some (some r') := by
    intro k r' hd
    by_cases hk : slot = k
    · subst hk
      rw [getElem?_set_some hd, if_pos rfl, hr.unique (h.slots slot r' start len hd hchunk)]
    · rwa [List.getElem?_set_ne hk]
  refine ⟨⟨h.lengths, h.tiles, by simpa using h.sent, fun k r' start' len' hd hc => ?_, ?_⟩, hg⟩
  · by_cases hk : slot = k
    · subst hk
      have hr' : r' = r := by
        rw [List.getElem?_set_self'] at hd
        cases hs : call.done[slot]? <;> simp [hs] at hd
        exact hd.symm
      rw [hchunk] at hc
      cases hc
      subst hr'
      exact hr.grows hg
    · rw [List.getElem?_set_ne hk] at hd
      exact (h.slots k r' start' len' hd hc).grows hg
  · have hp := h.phase
    change PhaseOk (call.sequential f) call.chunks.length _ call.phase
    cases hphase : call.phase with
    | sending => trivial
    | waiting next firstError =>
      rw [hphase] at hp
      exact ⟨by simpa using hp.1, hp.2.mono hkeep⟩
    | returned result =>
      rw [hphase] at hp
      exact hp

end Calls

/-! ## The pool -/

/-- What is known of a worker's task while it runs it; nobody has left the pool. -/
def WorkerOk (P : PyWorld F M Fn Obj) (f : PureFunctions F) (calls : List (Call F)) :
    WorkerPhase Fn → Prop
  | .starting | .idle | .releasing _ => True
  | .resolving t => ∃ call, TaskAt calls t call
  | .running t func next => ∃ call, TaskAt calls t call ∧
    (∀ val, pyCall P.toPyObjects call.dtype func val = f call.ctx.names call.dtype val) ∧
    ∀ j < next, RightAt f call (t.start + j)
  | .finishing t r => ∃ call, TaskAt calls t call ∧ ChunkResult f call t.start t.len r
  | .exiting | .exited => False

/-- All calls are right, and the workers and the queue serve them. -/
structure Serving (P : PyWorld F M Fn Obj) (f : PureFunctions F) (s : Pool F M Fn) : Prop where
  nonempty : 0 < s.workers.length
  calls : ∀ (c : ℕ) call, s.calls[c]? = some call → CallOk f call
  queue : ∀ msg ∈ s.queue, ∃ t call, msg = .task t ∧ TaskAt s.calls t call
  workers : ∀ (w : ℕ) (wk : Worker M Fn), s.workers[w]? = some wk →
    wk.startsOk = true ∧ WorkerOk P f s.calls wk.phase

/-- Nobody shuts down or dies, and a worker that looks a function up gets one that computes
the call's pure function. -/
def Quiet (P : PyWorld F M Fn Obj) (f : PureFunctions F) (s : Pool F M Fn) : PoolAction F → Prop
  | .worker w fault => ∀ (wk : Worker M Fn) t call, s.workers[w]? = some wk →
    wk.phase = .resolving t → s.calls[t.call]? = some call →
    ∃ func, (P.lookup w fault call.ctx call.addr wk.cache).1 = .ok func ∧
      ∀ val, pyCall P.toPyObjects call.dtype func val = f call.ctx.names call.dtype val
  | .execute _ _ _ _ | .call _ => True
  | .shutdownWorkers | .shutdown _ | .crash _ => False

/-- Every call goes on. -/
def CallsGrow (f : PureFunctions F) (calls calls' : List (Call F)) : Prop :=
  ∀ (c : ℕ) call, calls[c]? = some call → ∃ call', calls'[c]? = some call' ∧ call.Grows f call'

section Serving
variable {P : PyWorld F M Fn Obj} {f : PureFunctions F} {s s' : Pool F M Fn} {a : PoolAction F}
  {calls calls' : List (Call F)} {t : Task} {call call' : Call F}

theorem CallsGrow.refl (calls : List (Call F)) : CallsGrow f calls calls :=
  fun _ call h => ⟨call, h, .refl f call⟩

theorem CallsGrow.set {c : ℕ} (hc : calls[c]? = some call) (hg : call.Grows f call') :
    CallsGrow f calls (calls.set c call') := by
  intro c' call₁ h
  rw [getElem?_set_some hc]
  split
  · rename_i he
    subst he
    rw [hc] at h
    cases h
    exact ⟨call', rfl, hg⟩
  · exact ⟨call₁, h, .refl f call₁⟩

theorem TaskAt.grows (h : TaskAt calls t call) (hg : CallsGrow f calls calls') :
    ∃ call', TaskAt calls' t call' ∧ call.Grows f call' := by
  obtain ⟨hcall, hchunk, hslot⟩ := h
  obtain ⟨call', hcall', hgrow⟩ := hg _ _ hcall
  refine ⟨call', ⟨hcall', ?_, hslot.trans_le hgrow.sent⟩, hgrow⟩
  obtain ⟨_, _, _, rfl⟩ := hgrow.same
  exact hchunk

theorem WorkerOk.grows {phase : WorkerPhase Fn} (h : WorkerOk P f calls phase)
    (hg : CallsGrow f calls calls') : WorkerOk P f calls' phase := by
  cases phase with
  | starting | idle | releasing => trivial
  | resolving t =>
    obtain ⟨call, hat⟩ := h
    obtain ⟨call', hat', -⟩ := hat.grows hg
    exact ⟨call', hat'⟩
  | running t func next =>
    obtain ⟨call, hat, hfunc, hright⟩ := h
    obtain ⟨call', hat', hgrow⟩ := hat.grows hg
    refine ⟨call', hat', ?_, fun j hj => hgrow.right _ (hright j hj)⟩
    obtain ⟨_, _, _, rfl⟩ := hgrow.same
    exact hfunc
  | finishing t r =>
    obtain ⟨call, hat, hresult⟩ := h
    obtain ⟨call', hat', hgrow⟩ := hat.grows hg
    exact ⟨call', hat', hresult.grows hgrow⟩
  | exiting | exited => exact h

/-- What has to be shown of a step. -/
theorem Serving.update (h : Serving P f s) (hlen : s'.workers.length = s.workers.length)
    (hgrow : CallsGrow f s.calls s'.calls)
    (hcalls : ∀ (c : ℕ) call, s'.calls[c]? = some call → s.calls[c]? = some call ∨ CallOk f call)
    (hqueue : ∀ msg ∈ s'.queue, msg ∈ s.queue ∨ ∃ t call, msg = .task t ∧ TaskAt s'.calls t call)
    (hworkers : ∀ (w : ℕ) (wk : Worker M Fn), s'.workers[w]? = some wk →
      s.workers[w]? = some wk ∨ wk.startsOk = true ∧ WorkerOk P f s'.calls wk.phase) :
    Serving P f s' where
  nonempty := hlen ▸ h.nonempty
  calls c call hc := (hcalls c call hc).elim (h.calls c call) id
  queue msg hmsg := by
    rcases hqueue msg hmsg with hold | hnew
    · obtain ⟨t, call, rfl, hat⟩ := h.queue msg hold
      obtain ⟨call', hat', -⟩ := hat.grows hgrow
      exact ⟨t, call', rfl, hat'⟩
    · exact hnew
  workers w wk hwk := by
    rcases hworkers w wk hwk with hold | hnew
    · exact ⟨(h.workers w wk hold).1, (h.workers w wk hold).2.grows hgrow⟩
    · exact hnew

theorem Serving.connected (h : Serving P f s) : s.disconnected = false := by
  obtain ⟨wk, hwk⟩ : ∃ wk, s.workers[0]? = some wk := ⟨_, List.getElem?_eq_getElem h.nonempty⟩
  rw [Pool.disconnected, List.all_eq_false]
  refine ⟨wk, List.mem_of_getElem? hwk, ?_⟩
  have hok := (h.workers 0 wk hwk).2
  intro hexit
  cases hphase : wk.phase <;> rw [hphase] at hok hexit <;> first | exact hok | cases hexit

theorem Serving.stepCall {c : ℕ} (h : Serving P f s) (hs : s.stepCall c = some s') :
    Serving P f s' := by
  obtain ⟨call, hcall, hstep⟩ := stepCall_cases hs
  have hok := h.calls c call hcall
  have hset : ∀ {call'}, CallOk f call' ∧ call.Grows f call' → Serving P f (s.setCall c call') := by
    rintro call' ⟨hok', hg⟩
    refine h.update rfl (.set hcall hg) (fun c' call₁ hc' => ?_) (fun _ hm => .inl hm)
      fun _ _ hw => .inl hw
    rcases getElem?_set_cases hc' with hold | rfl
    · exact .inl hold
    · exact .inr hok'
  cases hstep with
  | allSent hphase hnone =>
    refine hset (hok.setPhase ⟨?_, fun k hk => absurd hk (by omega)⟩)
    have := List.getElem?_eq_none_iff.mp hnone
    exact le_antisymm hok.sent this
  | sendFailed hphase hchunk hdisc =>
    rw [h.connected] at hdisc
    cases hdisc
  | send hphase hchunk hconn hroom =>
    have hmore := (List.getElem?_eq_some_iff.mp hchunk).1
    obtain ⟨hok', hg⟩ := hok.send hphase hmore
    refine h.update rfl (.set hcall hg) (fun c' call₁ hc' => ?_) (fun msg hm => ?_)
      fun _ _ hw => .inl hw
    · rcases getElem?_set_cases hc' with hold | rfl
      · exact .inl hold
      · exact .inr hok'
    · rcases List.mem_append.mp hm with hold | hnew
      · exact .inl hold
      · refine .inr ⟨_, { call with done := call.done ++ [none] }, List.mem_singleton.mp hnew, ?_,
          hchunk, ?_⟩
        · exact (getElem?_set_some hcall).trans (if_pos rfl)
        · simp
  | finish hphase hend => exact hset (hok.setPhase (hok.finish hphase hend))
  | waitOk hphase hslot =>
    have hp := hok.phase
    rw [hphase] at hp
    exact hset (hok.setPhase ⟨hp.1, hp.2.ok hslot⟩)
  | waitErr hphase hslot =>
    have hp := hok.phase
    rw [hphase] at hp
    exact hset (hok.setPhase ⟨hp.1, hp.2.error hslot⟩)

/-- A worker takes a step, with what it does to the calls. -/
theorem Serving.putWorker (h : Serving P f s) {w : ℕ} {wk wk' : Worker M Fn}
    {queue : List WorkerMessage} (hwk : s.workers[w]? = some wk) (hstarts : wk'.startsOk = wk.startsOk)
    (hgrow : CallsGrow f s.calls calls')
    (hcalls : ∀ (c : ℕ) call, calls'[c]? = some call → s.calls[c]? = some call ∨ CallOk f call)
    (hqueue : ∀ msg ∈ queue, msg ∈ s.queue) (hphase : WorkerOk P f calls' wk'.phase) :
    Serving P f { s with workers := s.workers.set w wk', queue := queue, calls := calls' } := by
  refine h.update (List.length_set ..) hgrow hcalls (fun msg hm => .inl (hqueue msg hm))
    fun w' wk₁ hw => ?_
  rcases getElem?_set_cases hw with hold | rfl
  · exact .inl hold
  · exact .inr ⟨hstarts.trans (h.workers w wk hwk).1, hphase⟩

theorem Serving.stepWorker (hfl : P.fl.cmp .eq (minusOne P.fl .f64) (minusOne P.fl .f64) = true)
    {w : ℕ} {fault : Option (ℕ × String)} (h : Serving P f s) (hq : Quiet P f s (.worker w fault))
    (hs : s.stepWorker P w fault = some s') : Serving P f s' := by
  obtain ⟨wk, hwk, hstep⟩ := stepWorker_cases hs
  obtain ⟨hstarts, hok⟩ := h.workers w wk hwk
  have hsame : ∀ {wk' : Worker M Fn}, wk'.startsOk = wk.startsOk → WorkerOk P f s.calls wk'.phase →
      Serving P f { s with workers := s.workers.set w wk' } := fun hst hph =>
    h.putWorker hwk hst (.refl _) (fun _ _ hc => .inl hc) (fun _ hm => hm) hph
  cases hstep with
  | started => exact hsame rfl trivial
  | startFailed _ hfails =>
    rw [hstarts] at hfails
    cases hfails
  | recvShutdown _ hqueue =>
    obtain ⟨t, call, hm, -⟩ := h.queue .shutdown (by simp [hqueue])
    cases hm
  | @recvTask t rest _ hqueue =>
    obtain ⟨t', call, hm, hat⟩ := h.queue (.task t) (by simp [hqueue])
    cases hm
    exact h.putWorker hwk rfl (.refl _) (fun _ _ hc => .inl hc)
      (fun msg hm => by simp [hqueue, hm]) ⟨call, hat⟩
  | resolved hphase hcall hlookup =>
    rw [hphase] at hok
    obtain ⟨call, hat⟩ := hok
    obtain ⟨func, hfunc, hpure⟩ := hq wk _ _ hwk hphase hcall
    rw [hlookup] at hfunc
    cases hfunc
    rw [hat.1] at hcall
    cases hcall
    exact hsame rfl ⟨_, hat, hpure, fun j hj => absurd hj (by omega)⟩
  | resolveFailed hphase hcall hlookup =>
    obtain ⟨func, hfunc, -⟩ := hq wk _ _ hwk hphase hcall
    rw [hlookup] at hfunc
    cases hfunc
  | element hphase hcall hlt hval hres =>
    rw [hphase] at hok
    obtain ⟨call, hat, hfunc, hright⟩ := hok
    rw [hat.1] at hcall
    cases hcall
    rw [perElement_eq_pyCall hfl, hfunc] at hres
    have hcallOk := h.calls _ _ hat.1
    obtain ⟨hg, hself⟩ := Call.Grows.write hval hres hcallOk.lengths
    have hgrow := CallsGrow.set hat.1 hg
    refine h.putWorker hwk rfl hgrow (fun c call₁ hc => ?_) (fun _ hm => hm)
      ⟨_, ⟨(getElem?_set_some hat.1).trans (if_pos rfl), hat.2⟩, hfunc, fun j hj => ?_⟩
    · rcases getElem?_set_cases hc with hold | rfl
      · exact .inl hold
      · exact .inr (hcallOk.write hval hres)
    · rcases Nat.lt_succ_iff_lt_or_eq.mp hj with hj | rfl
      · exact hg.right _ (hright j hj)
      · exact hself
  | elementFailed hphase hcall hlt hval hres =>
    rw [hphase] at hok
    obtain ⟨call, hat, hfunc, hright⟩ := hok
    rw [hat.1] at hcall
    cases hcall
    rw [perElement_eq_pyCall hfl, hfunc] at hres
    exact hsame rfl ⟨_, hat, _, hlt, hright, _, _, hval, hres, rfl⟩
  | elementsDone hphase hcall hge =>
    rw [hphase] at hok
    obtain ⟨call, hat, hfunc, hright⟩ := hok
    exact hsame rfl ⟨call, hat, fun j hj => hright j (by omega)⟩
  | finish hphase hcall =>
    rw [hphase] at hok
    obtain ⟨call, hat, hresult⟩ := hok
    rw [hat.1] at hcall
    cases hcall
    obtain ⟨hok', hg⟩ := (h.calls _ _ hat.1).fill hat.2.1 hresult
    refine h.putWorker hwk rfl (.set hat.1 hg) (fun c call₁ hc => ?_) (fun _ hm => hm) trivial
    rcases getElem?_set_cases hc with hold | rfl
    · exact .inl hold
    · exact .inr hok'
  | release => exact hsame rfl trivial
  | exit hphase =>
    rw [hphase] at hok
    exact hok.elim

theorem Call.begin_ok (f : PureFunctions F) (numThreads : ℕ) (ctx : CallContext) (addr : ℕ) (d : Dtype)
    (zero : Elem F d) (input : List (Elem F d)) :
    CallOk f (Call.begin numThreads ctx addr d zero input) := by
  obtain ⟨chunks, hchunks, htiles⟩ := sliceChunks_tiles (pickChunkSize_pos input.length numThreads)
    (Nat.zero_add input.length) (Nat.lt_succ_self input.length)
  refine ⟨by simp [Call.begin], ?_, Nat.zero_le _, fun k r start len hd => ?_, trivial⟩
  · simp only [Call.begin, hchunks, Option.getD_some]
    exact htiles
  · simp [Call.begin] at hd

theorem Serving.begin {names : Names} {sysPath : List String} {array : ArrowArray F} {addr : ℕ}
    (h : Serving P f s) (hs : s.begin P names sysPath array addr = some s') : Serving P f s' := by
  obtain ⟨-, rfl | ⟨d, zero, input, rfl⟩⟩ := begin_cases hs
  · exact h
  · refine h.update rfl (fun c call hc => ⟨call, ?_, .refl f call⟩) (fun c call hc => ?_)
      (fun _ hm => .inl hm) fun _ _ hw => .inl hw
    · rw [List.getElem?_append_left (List.getElem?_eq_some_iff.mp hc).1]
      exact hc
    · rcases getElem?_concat_cases hc with hold | rfl
      · exact .inl hold
      · exact .inr (Call.begin_ok ..)

theorem Serving.step (hfl : P.fl.cmp .eq (minusOne P.fl .f64) (minusOne P.fl .f64) = true)
    (h : Serving P f s) (hq : Quiet P f s a) (hs : P.step s a = some s') : Serving P f s' := by
  cases a with
  | execute => exact h.begin hs
  | call c => exact h.stepCall hs
  | worker w fault => exact h.stepWorker hfl hq hs
  | shutdownWorkers | shutdown | crash => exact hq.elim

theorem Serving.init {n : ℕ} (hn : 0 < n) (sysPath : List String) :
    Serving P f (Pool.init sysPath (List.replicate n true)) where
  nonempty := by simpa [Pool.init] using hn
  calls c call hc := by simp [Pool.init] at hc
  queue msg hm := by simp [Pool.init] at hm
  workers w wk hwk := by
    obtain ⟨ok, hok, rfl⟩ := List.mem_map.mp (List.mem_of_getElem? hwk)
    exact ⟨List.eq_of_mem_replicate hok, trivial⟩

end Serving

end Gilmap
