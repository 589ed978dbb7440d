import Gilmap.Pool.Execute
import Gilmap.Pool.Orphans

/-! # Progress of the pool

The threads of a pool can take finitely many steps before a new call comes, and when none
of them can take a step, no task is served: without orphans, every call has returned.
-/
namespace Gilmap
open Library
variable {F M Fn Obj : Type}

/-! ## The chunks of a call -/

/-- The chunks of a call partition its input, and there is a slot for each chunk sent. -/
structure Call.Shaped (call : Call F) : Prop where
  tiles : Tiles call.input.length 0 call.chunks
  sent : call.done.length ≤ call.chunks.length

def AllShaped (s : Pool F M Fn) : Prop := ∀ (c : ℕ) call, s.calls[c]? = some call → call.Shaped

section Steps
variable {P : PyWorld F M Fn Obj} {s s' : Pool F M Fn} {a : PoolAction F} {t : Task} {call : Call F}
  {wk wk' : Worker M Fn} {w c : ℕ}

theorem Call.begin_shaped (numThreads : ℕ) (ctx : CallContext) (addr : ℕ) (d : Dtype) (zero : Elem F d)
    (input : List (Elem F d)) : (Call.begin numThreads ctx addr d zero input).Shaped := by
  obtain ⟨chunks, hchunks, htiles⟩ := sliceChunks_tiles (pickChunkSize_pos input.length numThreads)
    (Nat.zero_add input.length) (Nat.lt_succ_self input.length)
  refine ⟨?_, Nat.zero_le _⟩
  simp only [Call.begin, hchunks, Option.getD_some]
  exact htiles

theorem AllShaped.step (h : AllShaped s) (hs : P.step s a = some s') : AllShaped s' := by
  have hset : ∀ {c call'}, s'.calls = s.calls.set c call' → call'.Shaped → AllShaped s' := by
    intro c call' hcalls hnew c' call₁ hc
    rw [hcalls] at hc
    rcases getElem?_set_cases hc with hold | rfl
    · exact h c' call₁ hold
    · exact hnew
  cases a with
  | execute names sysPath array addr =>
    obtain ⟨-, rfl | ⟨d, zero, input, rfl⟩⟩ := begin_cases hs
    · exact h
    · intro c call hc
      rcases getElem?_concat_cases hc with hold | rfl
      · exact h c call hold
      · exact Call.begin_shaped ..
  | call c =>
    obtain ⟨call, hcall, hstep⟩ := stepCall_cases hs
    have hold := h c call hcall
    cases hstep with
    | send _ hchunk =>
      have hlt := (List.getElem?_eq_some_iff.mp hchunk).1
      exact hset rfl ⟨hold.tiles, by simp; omega⟩
    | allSent | sendFailed | finish | waitOk | waitErr =>
      exact hset rfl ⟨hold.tiles, hold.sent⟩
  | worker w fault =>
    obtain ⟨wk, -, hstep⟩ := stepWorker_cases hs
    cases hstep with
    | element _ hcall =>
      have hold := h _ _ hcall
      exact hset rfl ⟨hold.tiles, hold.sent⟩
    | finish _ hcall =>
      have hold := h _ _ hcall
      exact hset rfl ⟨hold.tiles, by simpa using hold.sent⟩
    | startFailed | exit => exact fun c call hc => h c call (Pool.exit_calls ▸ hc)
    | started | recvShutdown | recvTask | resolved | resolveFailed | elementFailed | elementsDone
    | release => exact h
  | shutdownWorkers =>
    cases hs
    exact h
  | shutdown k => cases stepShutdown_cases hs <;> exact h
  | crash w =>
    obtain ⟨wk, -, rfl⟩ := crash_cases hs
    exact fun c call hc => h c call (Pool.exit_calls ▸ hc)

theorem allShaped_of_reachable {sysPath : List String} {starts : List Bool}
    (h : Reachable P.step (Pool.init sysPath starts) s) : AllShaped s :=
  h.invariant (I := AllShaped) (fun c call hc => by simp [Pool.init] at hc) fun hI hs => hI.step hs

/-! ## Who can take a step -/

/-- The worker has left, or there is nothing for it to do. -/
def Pool.Resting (s : Pool F M Fn) (wk : Worker M Fn) : Prop :=
  wk.phase.isExited = true ∨ wk.phase = .idle ∧ s.queue = []

/-- A worker that is not at rest can go on, whatever it finds. -/
theorem stepWorker_enabled (hacc : Accounted s) (hshaped : AllShaped s) (hwk : s.workers[w]? = some wk)
    (hbusy : ¬ s.Resting wk) (fault : Option (ℕ × String)) :
    ∃ s', P.step s (.worker w fault) = some s' := by
  have hheld : ∀ t, wk.phase.pending? = some t → ∃ call, TaskAt s.calls t call := fun t ht =>
    hacc.held t (.inr ⟨wk, List.mem_of_getElem? hwk, ht⟩)
  simp only [PyWorld.step, Pool.stepWorker, hwk, bind, Option.bind_some]
  cases hphase : wk.phase with
  | starting => exact ⟨_, rfl⟩
  | idle =>
    cases hqueue : s.queue with
    | nil => exact absurd (.inr ⟨hphase, hqueue⟩) hbusy
    | cons msg rest => cases msg <;> exact ⟨_, rfl⟩
  | resolving t =>
    obtain ⟨call, hcall, -⟩ := hheld t (by rw [hphase]; rfl)
    simp only [hcall, Option.bind_some]
    rcases P.lookup w fault call.ctx call.addr wk.cache with ⟨e | func, cache⟩ <;> exact ⟨_, rfl⟩
  | running t func next =>
    obtain ⟨call, hcall, hchunk, hslot⟩ := hheld t (by rw [hphase]; rfl)
    simp only [hcall, Option.bind_some]
    by_cases hlt : next < t.len
    · have hbound := ((hshaped _ _ hcall).tiles.bounds _ (List.mem_of_getElem? hchunk)).2
      obtain ⟨val, hval⟩ : ∃ val, call.input[t.start + next]? = some val :=
        ⟨_, List.getElem?_eq_getElem (by simp only at hbound; omega)⟩
      simp only [if_pos hlt, hval, Option.bind_some]
      cases perElement P.fl P.toPyObjects call.dtype func val <;> exact ⟨_, rfl⟩
    · simp only [if_neg hlt]
      exact ⟨_, rfl⟩
  | finishing t r =>
    obtain ⟨call, hcall, -⟩ := hheld t (by rw [hphase]; rfl)
    simp only [hcall, Option.bind_some]
    exact ⟨_, rfl⟩
  | releasing t => exact ⟨_, rfl⟩
  | exiting => exact ⟨_, rfl⟩
  | exited => exact absurd (.inl (by rw [hphase]; rfl)) hbusy

/-- A task that is served has a worker that is not at rest. -/
theorem Pool.Served.busy (h : s.Served t) : ∃ (w : ℕ) (wk : Worker M Fn), s.workers[w]? = some wk ∧
    ¬ s.Resting wk := by
  rcases h with ⟨wk, hwk, -, hp⟩ | ⟨i, hi, hlt⟩
  · obtain ⟨w, hw⟩ := List.mem_iff_getElem?.mp hwk
    refine ⟨w, wk, hw, ?_⟩
    rintro (hexit | ⟨hidle, -⟩)
    · cases hphase : wk.phase <;>
        simp [hphase, WorkerPhase.isExited, WorkerPhase.pending?] at hexit hp
    · rw [hidle] at hp
      cases hp
  · obtain ⟨wk, hwk, hlive⟩ := List.countP_pos_iff.mp ((Nat.zero_le _).trans_lt hlt)
    obtain ⟨w, hw⟩ := List.mem_iff_getElem?.mp hwk
    refine ⟨w, wk, hw, ?_⟩
    rintro (hexit | ⟨-, hempty⟩)
    · cases hphase : wk.phase <;> simp [hphase, WorkerPhase.isExited, Worker.live] at hexit hlive
    · rw [hempty] at hi
      cases hi

/-- What a call that has not returned waits for. -/
theorem stepCall_blocked (hcall : s.calls[c]? = some call) (hret : call.returned = false)
    (hstuck : s.stepCall c = none) :
    (call.phase = .sending ∧ s.disconnected = false ∧ s.queueCap ≤ s.queue.length ∧
      call.done.length < call.chunks.length) ∨
    ∃ next firstError, call.phase = .waiting next firstError ∧ call.done[next]? = some none := by
  simp only [Pool.stepCall, hcall, bind, Option.bind_some] at hstuck
  split at hstuck
  · rename_i hphase
    split at hstuck
    · cases hstuck
    · rename_i start len hchunk
      split at hstuck
      · cases hstuck
      · split at hstuck
        · cases hstuck
        · exact .inl ⟨hphase, Bool.eq_false_iff.mpr ‹_›, not_lt.mp ‹_›,
            (List.getElem?_eq_some_iff.mp hchunk).1⟩
  · rename_i next firstError hphase
    split at hstuck
    · cases hstuck
    · exact .inr ⟨next, firstError, hphase, ‹_›⟩
    · cases hstuck
    · cases hstuck
  · rename_i result hphase
    simp [Call.returned, hphase] at hret

/-- A step of a call or a worker that is there. -/
def PoolAction.isThread : PoolAction F → Bool
  | .call _ | .worker _ _ => true
  | .execute _ _ _ _ | .shutdownWorkers | .shutdown _ | .crash _ => false

/-- The channel is never full for workers at rest. -/
theorem Pool.busy_of_full (hconn : s.disconnected = false) (hfull : s.queueCap ≤ s.queue.length) :
    ∃ (w : ℕ) (wk : Worker M Fn), s.workers[w]? = some wk ∧ ¬ s.Resting wk := by
  obtain ⟨wk, hwk, hexit⟩ := List.all_eq_false.mp hconn
  obtain ⟨w, hw⟩ := List.mem_iff_getElem?.mp hwk
  refine ⟨w, wk, hw, ?_⟩
  rintro (h | ⟨-, hempty⟩)
  · exact hexit h
  · have hlt := (List.getElem?_eq_some_iff.mp hw).1
    rw [hempty, Pool.queueCap, chunksPerWorker, List.length_nil] at hfull
    omega

/-- An empty slot keeps a worker busy. -/
theorem Pool.NoOrphan.busy (h : s.NoOrphan) (hshaped : AllShaped s) (hcall : s.calls[c]? = some call)
    {k : ℕ} (hslot : call.done[k]? = some none) :
    ∃ (w : ℕ) (wk : Worker M Fn), s.workers[w]? = some wk ∧ ¬ s.Resting wk := by
  have hlt := (List.getElem?_eq_some_iff.mp hslot).1
  obtain ⟨⟨start, len⟩, hchunk⟩ : ∃ p, call.chunks[k]? = some p :=
    ⟨_, List.getElem?_eq_getElem (hlt.trans_le (hshaped c call hcall).sent)⟩
  exact (h ⟨c, k, start, len⟩ ⟨call, ⟨hcall, hchunk, hlt⟩, hslot⟩).busy

/-- Without orphans somebody can go on as long as some call has not returned. -/
theorem exists_step (hacc : Accounted s) (hshaped : AllShaped s) (hno : s.NoOrphan)
    (hcall : s.calls[c]? = some call) (hret : call.returned = false) :
    ∃ a s', a.isThread = true ∧ P.step s a = some s' := by
  cases hstep : s.stepCall c with
  | some s' => exact ⟨.call c, s', rfl, hstep⟩
  | none =>
    obtain ⟨w, wk, hwk, hbusy⟩ : ∃ (w : ℕ) (wk : Worker M Fn), s.workers[w]? = some wk ∧
        ¬ s.Resting wk := by
      rcases stepCall_blocked hcall hret hstep with ⟨-, hconn, hfull, -⟩ | ⟨next, _, -, hslot⟩
      · exact Pool.busy_of_full hconn hfull
      · exact hno.busy hshaped hcall hslot
    obtain ⟨s', hs'⟩ := stepWorker_enabled hacc hshaped hwk hbusy none
    exact ⟨.worker w none, s', rfl, hs'⟩

end Steps

/-! ## How many steps are left -/

def WorkerMessage.work : WorkerMessage → ℕ
  | .task t => t.len + 5
  | .shutdown => 2

def WorkerPhase.work : WorkerPhase Fn → ℕ
  | .starting | .releasing _ | .exiting => 1
  | .idle | .exited => 0
  | .resolving t => t.len + 4
  | .running t _ next => t.len - next + 3
  | .finishing _ _ => 2

def Call.work (call : Call F) : ℕ :=
  match call.phase with
  | .sending => ((call.chunks.drop call.done.length).map fun p => p.2 + 6).sum + call.chunks.length + 2
  | .waiting next _ => call.done.length - next + 1
  | .returned _ => 0

/-- A bound on the steps that the threads can take on their own. -/
def Pool.work (s : Pool F M Fn) : ℕ :=
  (s.queue.map WorkerMessage.work).sum + (s.workers.map fun wk => wk.phase.work).sum +
    (s.calls.map Call.work).sum

section Work
variable {P : PyWorld F M Fn Obj} {s s' : Pool F M Fn} {a : PoolAction F} {t : Task} {call : Call F}
  {wk wk' : Worker M Fn} {w c : ℕ}

theorem sum_map_set {α : Type} {g : α → ℕ} {l : List α} {i : ℕ} {a b : α} (hi : l[i]? = some a) :
    ((l.set i b).map g).sum + g a = (l.map g).sum + g b := by
  induction l generalizing i with
  | nil => cases hi
  | cons x l ih =>
    cases i with
    | zero =>
      cases hi
      simp only [List.set_cons_zero, List.map_cons, List.sum_cons]
      omega
    | succ i =>
      have hrest := ih (i := i) (by simpa using hi)
      simp only [List.set_cons_succ, List.map_cons, List.sum_cons]
      omega

theorem CallStep.work_lt (hshaped : call.Shaped) (hcall : s.calls[c]? = some call)
    (h : CallStep s c call s') : s'.work < s.work := by
  have hset : ∀ {call' : Call F} {queue}, (queue.map WorkerMessage.work).sum + call'.work <
      (s.queue.map WorkerMessage.work).sum + call.work →
      ({ s with calls := s.calls.set c call', queue := queue } : Pool F M Fn).work < s.work := by
    intro call' queue hlt
    have hsum := sum_map_set (g := Call.work) (b := call') hcall
    simp only [Pool.work]
    omega
  cases h with
  | allSent hphase hnone =>
    refine hset ?_
    simp only [Call.work, hphase]
    have := hshaped.sent
    omega
  | sendFailed hphase hchunk hdisc =>
    refine hset ?_
    simp only [Call.work, hphase]
    omega
  | @send start len hphase hchunk hconn hroom =>
    refine hset ?_
    have hlt := (List.getElem?_eq_some_iff.mp hchunk).1
    have hdrop : call.chunks.drop call.done.length =
        (start, len) :: call.chunks.drop (call.done.length + 1) := by
      rw [List.drop_eq_getElem_cons hlt, (List.getElem?_eq_some_iff.mp hchunk).2]
    simp only [Call.work, hphase, hdrop, List.length_append, List.length_singleton, List.map_append,
      List.map_cons, List.map_nil, List.sum_append, List.sum_cons, List.sum_nil, WorkerMessage.work]
    omega
  | finish hphase hend =>
    refine hset ?_
    simp only [Call.work, hphase]
    omega
  | waitOk hphase hslot | waitErr hphase hslot =>
    refine hset ?_
    have := (List.getElem?_eq_some_iff.mp hslot).1
    simp only [Call.work, hphase]
    omega

theorem Pool.work_lt_of_set {queue : List WorkerMessage} {calls : List (Call F)}
    (hwk : s.workers[w]? = some wk) (hcalls : (calls.map Call.work).sum = (s.calls.map Call.work).sum)
    (h : (queue.map WorkerMessage.work).sum + wk'.phase.work <
      (s.queue.map WorkerMessage.work).sum + wk.phase.work) :
    ({ s with workers := s.workers.set w wk', queue := queue, calls := calls } : Pool F M Fn).work
      < s.work := by
  have hsum := sum_map_set (g := fun wk : Worker M Fn => wk.phase.work) (b := wk') hwk
  simp only [Pool.work, hcalls]
  omega

theorem Pool.exit_work_lt (hwk : s.workers[w]? = some wk) (h : 0 < wk.phase.work) :
    (s.exit w wk).work < s.work := by
  unfold Pool.exit
  dsimp only
  split
  · refine Pool.work_lt_of_set hwk rfl ?_
    change 0 + 0 < _
    omega
  · refine Pool.work_lt_of_set hwk rfl ?_
    change _ + 0 < _
    omega

/-- What a worker does to a call leaves the work of the call as it is. -/
theorem sum_work_set {results} {done : List (Option TaskResult)} (hcall : s.calls[c]? = some call)
    (h : done.length = call.done.length) :
    ((s.calls.set c { call with results := results, done := done }).map Call.work).sum =
      (s.calls.map Call.work).sum := by
  have hsum := sum_map_set (g := Call.work) (b := { call with results := results, done := done }) hcall
  have hwork : ({ call with results := results, done := done } : Call F).work = call.work := by
    unfold Call.work
    cases hphase : call.phase <;> simp only [h]
  omega

theorem WorkerStep.work_lt {fault : Option (ℕ × String)} (hwk : s.workers[w]? = some wk)
    (h : WorkerStep P s w fault wk s') : s'.work < s.work := by
  cases h with
  | started hphase | release hphase | resolved hphase | resolveFailed hphase | elementsDone hphase =>
    refine Pool.work_lt_of_set hwk rfl ?_
    simp only [hphase, WorkerPhase.work]
    omega
  | startFailed hphase | exit hphase =>
    exact Pool.exit_work_lt hwk (by simp [hphase, WorkerPhase.work])
  | recvShutdown hphase hqueue | recvTask hphase hqueue =>
    refine Pool.work_lt_of_set hwk rfl ?_
    simp only [hphase, hqueue, WorkerPhase.work, WorkerMessage.work, List.map_cons, List.sum_cons]
    omega
  | element hphase hcall hlt =>
    refine Pool.work_lt_of_set hwk (sum_work_set hcall rfl) ?_
    simp only [hphase, WorkerPhase.work, Pool.setCall_queue]
    omega
  | elementFailed hphase hcall hlt =>
    refine Pool.work_lt_of_set hwk rfl ?_
    simp only [hphase, WorkerPhase.work]
    omega
  | finish hphase hcall =>
    refine Pool.work_lt_of_set hwk (sum_work_set hcall (by simp)) ?_
    simp only [hphase, WorkerPhase.work, Pool.setCall_queue]
    omega

theorem work_lt_of_step (hshaped : AllShaped s) (ha : a.isThread = true) (hs : P.step s a = some s') :
    s'.work < s.work := by
  cases a with
  | call c =>
    obtain ⟨call, hcall, hstep⟩ := stepCall_cases hs
    exact hstep.work_lt (hshaped c call hcall) hcall
  | worker w fault =>
    obtain ⟨wk, hwk, hstep⟩ := stepWorker_cases hs
    exact hstep.work_lt hwk
  | execute | shutdownWorkers | shutdown | crash => cases ha

/-- The threads can go on for as many steps as there is work, and no longer. -/
theorem length_le_work {init : Pool F M Fn} {bs : List (PoolAction F)} (hshaped : AllShaped init)
    (h : Run P.step (fun _ a => a.isThread = true) init bs s) : bs.length + s.work ≤ init.work := by
  refine (h.induction (I := fun bs s => AllShaped s ∧ bs.length + s.work ≤ init.work)
    ⟨hshaped, by simp⟩ ?_).2
  rintro as s s' a - ⟨hshaped, hle⟩ ha hs
  refine ⟨hshaped.step hs, ?_⟩
  have hlt := work_lt_of_step hshaped ha hs
  rw [List.length_append, List.length_singleton]
  omega

end Work

/-! ## Quiet runs -/

section Quiet
variable {P : PyWorld F M Fn Obj} {f : PureFunctions F} {s : Pool F M Fn}

/-- Nobody shuts a serving pool down, and all of its workers live. -/
theorem Serving.room (h : Serving P f s) : s.shutdownsBefore s.queue.length < s.liveCount := by
  have hzero : s.shutdownsBefore s.queue.length = 0 := by
    apply List.countP_eq_zero.mpr
    intro msg hmsg
    obtain ⟨t, call, rfl, -⟩ := h.queue msg (List.mem_of_mem_take hmsg)
    exact nofun
  obtain ⟨wk, hwk⟩ : ∃ wk, s.workers[0]? = some wk := ⟨_, List.getElem?_eq_getElem h.nonempty⟩
  rw [hzero]
  refine List.countP_pos_iff.mpr ⟨wk, List.mem_of_getElem? hwk, ?_⟩
  obtain ⟨hstarts, hok⟩ := h.workers 0 wk hwk
  cases hphase : wk.phase with
  | exiting | exited =>
    rw [hphase] at hok
    exact hok.elim
  | starting | idle | resolving | running | finishing | releasing =>
    simp [Worker.live, hstarts, hphase]

/-- **`execute` is the sequential map**, its errors included: in every quiet run, what a call
returns is the result of the sequential loop, the threads cannot go on forever, and they do
not stop before every call has returned. The last two leave the GIL aside, which callers keep
while they send and workers may need for an import: `Gilmap.Pool.Gil` is about it. -/
theorem execute_eq_sequential (hfl : P.fl.cmp .eq (minusOne P.fl .f64) (minusOne P.fl .f64) = true)
    {n : ℕ} (hn : 0 < n) {sysPath : List String} {as : List (PoolAction F)}
    (hrun : Run P.step (Quiet P f) (Pool.init sysPath (List.replicate n true)) as s) :
    (∀ call ∈ s.calls, ∀ r, call.phase = .returned r → r = call.sequential f) ∧
      (∀ bs s', Run P.step (fun _ a => a.isThread = true) s bs s' → bs.length ≤ s.work) ∧
      ((∀ a, a.isThread = true → P.step s a = none) → ∀ call ∈ s.calls, call.returned = true) := by
  have hreach := hrun.reachable
  obtain ⟨hserving, -, hno⟩ : Serving P f s ∧ Accounted s ∧ s.NoOrphan := by
    refine hrun.invariant (I := fun s => Serving P f s ∧ Accounted s ∧ s.NoOrphan)
      ⟨.init hn sysPath, .init sysPath _, Pool.noOrphan_init sysPath _⟩ ?_
    rintro s s' a ⟨hserving, hacc, hno⟩ hquiet hs
    have hcrash : a.isCrash = false := by
      cases a with
      | crash => exact hquiet.elim
      | execute | call | worker | shutdownWorkers | shutdown => rfl
    exact ⟨hserving.step hfl hquiet hs, hacc.step hs,
      hno.step hacc hs hcrash (sendSafe_of_room hserving.room a)⟩
  have hshaped : AllShaped s := allShaped_of_reachable hreach
  refine ⟨fun call hcall r hr => ?_, fun bs s' h => ?_, fun hstuck call hcall => ?_⟩
  · obtain ⟨c, hc⟩ := List.mem_iff_getElem?.mp hcall
    have hphase := (hserving.calls c call hc).phase
    rwa [hr] at hphase
  · have := length_le_work hshaped h
    omega
  · obtain ⟨c, hc⟩ := List.mem_iff_getElem?.mp hcall
    by_contra hret
    obtain ⟨a, s', ha, hs⟩ := exists_step (P := P) (accounted_of_reachable hreach) hshaped hno hc
      (Bool.eq_false_iff.mpr hret)
    rw [hstuck a ha] at hs
    cases hs

end Quiet

/-! ## A run -/

/-- `demoWorld` with the comparison of equal bit patterns. -/
def bitWorld : PyWorld (BitVec 64) String Names (BitVec 64) :=
  { demoWorld with fl := { hostFloatBits with cmp := fun cc x y =>
      match cc with
      | .eq => x == y
      | cc => hostFloatBits.cmp cc x y } }

/-- What `double` and `inc` compute. -/
def demoFunctions : PureFunctions (BitVec 64) := fun names d val =>
  pyCall bitWorld.toPyObjects d names val

/-- A worker that looks a function up finds the one that the call names. -/
def FindsNamed (s : DemoPool) : PoolAction (BitVec 64) → Prop
  | .worker w fault => ∀ wk ∈ s.workers[w]?, ∀ t ∈ wk.phase.task?, ∀ call ∈ s.calls[t.call]?,
    ∃ func ∈ (bitWorld.lookup w fault call.ctx call.addr wk.cache).1.toOption, func = call.ctx.names
  | .execute _ _ _ _ | .call _ => True
  | .shutdownWorkers | .shutdown _ | .crash _ => False

instance (s : DemoPool) : (a : PoolAction (BitVec 64)) → Decidable (FindsNamed s a)
  | .worker w fault => inferInstanceAs (Decidable (∀ wk ∈ s.workers[w]?, ∀ t ∈ wk.phase.task?,
    ∀ call ∈ s.calls[t.call]?,
      ∃ func ∈ (bitWorld.lookup w fault call.ctx call.addr wk.cache).1.toOption, func = call.ctx.names))
  | .execute _ _ _ _ | .call _ => .isTrue trivial
  | .shutdownWorkers | .shutdown _ | .crash _ => .isFalse id

theorem FindsNamed.quiet {s : DemoPool} {a : PoolAction (BitVec 64)} (h : FindsNamed s a) :
    Quiet bitWorld demoFunctions s a := by
  cases a with
  | worker w fault =>
    intro wk t call hwk hphase hcall
    obtain ⟨func, hfunc, rfl⟩ := h wk hwk t (by rw [hphase]; rfl) call hcall
    refine ⟨_, ?_, fun val => rfl⟩
    cases hr : (bitWorld.lookup w fault call.ctx call.addr wk.cache).1 with
    | error e => simp [hr, Except.toOption] at hfunc
    | ok func' =>
      simp only [hr, Except.toOption, Option.mem_some_iff] at hfunc
      rw [hfunc]
  | execute | call => trivial
  | shutdownWorkers | shutdown | crash => exact h

/-- Two workers answer the two chunks of a call in the other order. -/
def demoRun : List (PoolAction (BitVec 64)) :=
  [.execute ("tasks", "inc") [] (.int64 [3, 4]) 4096, .call 0, .call 0, .call 0,
    .worker 0 none, .worker 1 none, .worker 0 none, .worker 1 none, .worker 1 none,
    .worker 1 none, .worker 1 none, .worker 1 none, .worker 0 none, .worker 0 none,
    .worker 0 none, .worker 0 none, .call 0, .call 0, .call 0]

theorem execute_eq_sequential_demo : ∃ s : DemoPool,
    Run bitWorld.step (Quiet bitWorld demoFunctions) (Pool.init [] (List.replicate 2 true)) demoRun s ∧
      (∃ call ∈ s.calls, call.returned = true) ∧
      ∀ call ∈ s.calls, ∀ r, call.phase = .returned r → r = call.sequential demoFunctions := by
  obtain ⟨s, hs, hret⟩ : ∃ s : DemoPool, Run bitWorld.step FindsNamed
      (Pool.init [] (List.replicate 2 true)) demoRun s ∧ ∃ call ∈ s.calls, call.returned = true :=
    ⟨_, run_of_exec rfl, _, List.mem_singleton.mpr rfl, rfl⟩
  have hrun := hs.mono fun s a h => h.quiet
  exact ⟨s, hrun, hret, (execute_eq_sequential (beq_self_eq_true _) (by decide) hrun).1⟩

end Gilmap
