import Gilmap.Pool.Buffers
import Gilmap.Pool.Progress

/-! # `shutdown_workers`

A run of `shutdown_workers` sends a message for each worker and joins them all. It comes to
its end beside any calls and any other runs of itself, whether workers failed to start or
panicked, and leaves a channel without receivers behind.
-/
namespace Gilmap
open Library
variable {F M Fn Obj : Type}

/-! ## Messages and workers that have left -/

/-- The worker takes no further message. -/
def WorkerPhase.leaving : WorkerPhase Fn → Bool
  | .exiting | .exited => true
  | .starting | .idle | .resolving _ | .running _ _ _ | .finishing _ _ | .releasing _ => false

namespace Pool
variable (s : Pool F M Fn)

def leavers : ℕ := s.workers.countP (·.phase.leaving)

/-- The shutdown messages in the channel. -/
def queuedShutdowns : ℕ := s.queue.countP WorkerMessage.isShutdown

end Pool

/-- How far a run of `shutdown_workers` has come. A message that was sent is in the channel or
was taken by a worker that has left since, as long as there are messages at all. -/
def ShutdownPhase.Ok (s : Pool F M Fn) : ShutdownPhase → Prop
  | .sending sent => sent ≤ s.workers.length ∧ sent ≤ s.queuedShutdowns + s.leavers
  | .joining next => s.workers.length ≤ s.queuedShutdowns + s.leavers ∧
    ∀ (w : ℕ) wk, w < next → s.workers[w]? = some wk → wk.phase.isExited = true
  | .done => s.disconnected = true

def ShutdownsOk (s : Pool F M Fn) : Prop := ∀ phase ∈ s.shutdowns, phase.Ok s

/-- One step of a run of `shutdown_workers`, with the channel after it. -/
inductive ShutdownMove (s : Pool F M Fn) : ShutdownPhase → ShutdownPhase → List WorkerMessage → Prop
  | send {sent : ℕ} : sent < s.workers.length → s.disconnected = false →
      ShutdownMove s (.sending sent) (.sending (sent + 1)) (s.queue ++ [.shutdown])
  | sendFailed {sent : ℕ} : sent < s.workers.length → s.disconnected = true →
      ShutdownMove s (.sending sent) (.sending (sent + 1)) s.queue
  | allSent {sent : ℕ} : s.workers.length ≤ sent →
      ShutdownMove s (.sending sent) (.joining 0) s.queue
  | joined {next : ℕ} {wk : Worker M Fn} : s.workers[next]? = some wk → wk.phase.isExited = true →
      ShutdownMove s (.joining next) (.joining (next + 1)) s.queue
  | allJoined {next : ℕ} : s.workers[next]? = none → ShutdownMove s (.joining next) .done s.queue

section Steps
variable {P : PyWorld F M Fn Obj} {s s' : Pool F M Fn} {a : PoolAction F} {w k : ℕ}
  {wk wk' : Worker M Fn} {phase phase' : ShutdownPhase}

theorem shutdownMove_cases (hs : s.stepShutdown k = some s') :
    ∃ phase phase' queue, s.shutdowns[k]? = some phase ∧ ShutdownMove s phase phase' queue ∧
      s' = { s with shutdowns := s.shutdowns.set k phase', queue := queue } := by
  obtain ⟨phase, hphase, hs⟩ := Option.bind_eq_some_iff.mp hs
  refine ⟨phase, ?_⟩
  split at hs
  · split at hs
    · rename_i hlt
      split at hs
      · cases hs
        exact ⟨_, _, hphase, .sendFailed hlt ‹_›, rfl⟩
      · split at hs
        · cases hs
          exact ⟨_, _, hphase, .send hlt (Bool.eq_false_iff.mpr ‹_›), rfl⟩
        · cases hs
    · cases hs
      exact ⟨_, _, hphase, .allSent (not_lt.mp ‹_›), rfl⟩
  · split at hs
    · cases hs
      exact ⟨_, _, hphase, .allJoined ‹_›, rfl⟩
    · split at hs
      · cases hs
        exact ⟨_, _, hphase, .joined ‹_› ‹_›, rfl⟩
      · cases hs
  · cases hs

theorem Pool.leavers_eq_length (h : s.disconnected = true) : s.leavers = s.workers.length := by
  apply List.countP_eq_length.mpr
  intro wk hwk
  have hexited := List.all_eq_true.mp h wk hwk
  cases hphase : wk.phase with
  | exited => rfl
  | starting | idle | resolving | running | finishing | releasing | exiting =>
    rw [hphase] at hexited
    cases hexited

/-- A worker that has exited stays so. -/
theorem exited_stays (hs : P.step s a = some s') (hwk : s.workers[w]? = some wk)
    (hexited : wk.phase.isExited = true) : s'.workers[w]? = some wk := by
  rw [step_others hs, hwk]
  intro ha
  rw [not_isExited_of_step hs ha hwk] at hexited
  cases hexited

theorem workers_length_of_step (hs : P.step s a = some s') : s'.workers.length = s.workers.length := by
  cases a with
  | execute names sysPath array addr =>
    obtain ⟨-, rfl | ⟨d, zero, input, rfl⟩⟩ := begin_cases hs <;> rfl
  | call c =>
    obtain ⟨call, -, hstep⟩ := stepCall_cases hs
    rw [hstep.workers]
  | worker w fault =>
    obtain ⟨wk, -, hstep⟩ := stepWorker_cases hs
    obtain ⟨wk', hworkers, -⟩ := hstep.worker
    rw [hworkers, List.length_set]
  | shutdownWorkers =>
    cases hs
    rfl
  | shutdown k =>
    obtain ⟨phase, phase', queue, -, -, rfl⟩ := shutdownMove_cases hs
    rfl
  | crash w =>
    obtain ⟨wk, -, rfl⟩ := crash_cases hs
    rw [Pool.exit_workers, List.length_set]

/-! ## No message is lost -/

theorem Pool.leavers_set (hwk : s.workers[w]? = some wk) (hworkers : s'.workers = s.workers.set w wk') :
    s'.leavers + (if wk.phase.leaving = true then 1 else 0) =
      s.leavers + if wk'.phase.leaving = true then 1 else 0 := by
  rw [leavers, hworkers]
  exact countP_set_add hwk

theorem Pool.leavers_mono (hwk : s.workers[w]? = some wk) (hworkers : s'.workers = s.workers.set w wk')
    (h : wk.phase.leaving = true → wk'.phase.leaving = true) : s.leavers ≤ s'.leavers := by
  have hset := leavers_set hwk hworkers
  by_cases hwk' : wk.phase.leaving = true
  · rw [if_pos hwk', if_pos (h hwk')] at hset
    omega
  · rw [if_neg hwk'] at hset
    omega

theorem Pool.exit_shutdowns : (s.exit w wk).shutdowns = s.shutdowns := by
  unfold exit
  dsimp only
  split <;> rfl

theorem Pool.exit_connected (w : ℕ) (wk : Worker M Fn) :
    (s.exit w wk).queue = s.queue ∨ (s.exit w wk).disconnected = true := by
  unfold exit
  dsimp only
  split
  · exact .inr ‹_›
  · exact .inl rfl

/-- The shutdown messages that were sent are accounted for, as long as anybody receives. -/
def Pool.Kept (s s' : Pool F M Fn) : Prop :=
  s.queuedShutdowns + s.leavers ≤ s'.queuedShutdowns + s'.leavers ∨ s'.disconnected = true

theorem Pool.Kept.of_le (hqueue : s.queuedShutdowns ≤ s'.queuedShutdowns)
    (hleavers : s.leavers ≤ s'.leavers) : s.Kept s' :=
  .inl (Nat.add_le_add hqueue hleavers)

theorem Pool.exit_kept (hwk : s.workers[w]? = some wk) : s.Kept (s.exit w wk) := by
  rcases s.exit_connected w wk with hsame | hdisc
  · apply Kept.of_le
    · rw [queuedShutdowns, queuedShutdowns, hsame]
    · exact leavers_mono hwk exit_workers fun _ => rfl
  · exact .inr hdisc

theorem WorkerStep.kept {fault : Option (ℕ × String)} (hwk : s.workers[w]? = some wk)
    (h : WorkerStep P s w fault wk s') : s.Kept s' := by
  have hstays : ∀ wk', s'.workers = s.workers.set w wk' → wk.phase.leaving = false →
      s'.queuedShutdowns = s.queuedShutdowns → s.Kept s' := by
    intro wk' hworkers hphase hqueue
    refine .of_le hqueue.ge (Pool.leavers_mono hwk hworkers ?_)
    rw [hphase]
    exact nofun
  have hleaves : ∀ wk', s'.workers = s.workers.set w wk' → wk.phase.leaving = false →
      wk'.phase.leaving = true → s.queuedShutdowns ≤ s'.queuedShutdowns + 1 → s.Kept s' := by
    intro wk' hworkers hphase hphase' hqueue
    have hset := Pool.leavers_set hwk hworkers
    rw [hphase, hphase', if_neg Bool.false_ne_true, if_pos rfl] at hset
    left
    omega
  cases h with
  | startFailed | exit => exact Pool.exit_kept hwk
  | recvShutdown hphase hqueue =>
    apply hleaves _ rfl (by rw [hphase]; rfl) rfl
    simp only [Pool.queuedShutdowns, hqueue, List.countP_cons]
    exact Nat.le_refl _
  | recvTask hphase hqueue =>
    apply hstays _ rfl (by rw [hphase]; rfl)
    simp only [Pool.queuedShutdowns, hqueue, List.countP_cons]
    rfl
  | started hphase | resolved hphase | resolveFailed hphase | element hphase | elementFailed hphase
  | elementsDone hphase | finish hphase | release hphase =>
    exact hstays _ rfl (by rw [hphase]; rfl) rfl

theorem kept_of_step (hs : P.step s a = some s') : s.Kept s' := by
  cases a with
  | execute names sysPath array addr =>
    obtain ⟨-, rfl | ⟨d, zero, input, rfl⟩⟩ := begin_cases hs <;> exact .of_le le_rfl le_rfl
  | call c =>
    obtain ⟨call, hcall, hstep⟩ := stepCall_cases hs
    refine .of_le ?_ (by rw [Pool.leavers, Pool.leavers, hstep.workers])
    rcases hstep.channel hcall with ⟨hqueue, -⟩ | ⟨t, -, hqueue, -⟩
    · rw [Pool.queuedShutdowns, Pool.queuedShutdowns, hqueue]
    · rw [Pool.queuedShutdowns, Pool.queuedShutdowns, hqueue, List.countP_append]
      exact Nat.le_add_right _ _
  | worker w fault =>
    obtain ⟨wk, hwk, hstep⟩ := stepWorker_cases hs
    exact hstep.kept hwk
  | shutdownWorkers =>
    cases hs
    exact .of_le le_rfl le_rfl
  | shutdown k =>
    obtain ⟨phase, phase', queue, -, hmove, rfl⟩ := shutdownMove_cases hs
    refine .of_le ?_ le_rfl
    cases hmove with
    | send =>
      rw [Pool.queuedShutdowns, Pool.queuedShutdowns, List.countP_append]
      exact Nat.le_add_right _ _
    | sendFailed | allSent | joined | allJoined => exact le_rfl
  | crash w =>
    obtain ⟨wk, hwk, rfl⟩ := crash_cases hs
    exact Pool.exit_kept hwk

/-! ## The runs of `shutdown_workers` -/

theorem Pool.Kept.enough {n : ℕ} (hkept : s.Kept s') (hworkers : s'.workers.length = s.workers.length)
    (hn : n ≤ s.workers.length) (h : n ≤ s.queuedShutdowns + s.leavers) :
    n ≤ s'.queuedShutdowns + s'.leavers := by
  rcases hkept with hle | hdisc
  · exact h.trans hle
  · rw [leavers_eq_length hdisc, hworkers]
    exact hn.trans (Nat.le_add_left _ _)

/-- What a run has reached stays reached. -/
theorem ShutdownPhase.Ok.step (h : phase.Ok s) (hs : P.step s a = some s') : phase.Ok s' := by
  have hworkers := workers_length_of_step hs
  have hkept := kept_of_step hs
  cases phase with
  | sending sent =>
    obtain ⟨hle, hsent⟩ := h
    exact ⟨hle.trans_eq hworkers.symm, hkept.enough hworkers hle hsent⟩
  | joining next =>
    obtain ⟨hsent, hjoined⟩ := h
    refine ⟨hworkers.trans_le (hkept.enough hworkers le_rfl hsent), fun w wk' hw hwk' => ?_⟩
    have hlt := (List.getElem?_eq_some_iff.mp hwk').1.trans_eq hworkers
    have hexited := hjoined w _ hw (List.getElem?_eq_getElem hlt)
    rw [exited_stays hs (List.getElem?_eq_getElem hlt) hexited] at hwk'
    cases hwk'
    exact hexited
  | done => exact disconnected_stays hs h

theorem ShutdownMove.ok {queue : List WorkerMessage} (h : phase.Ok s)
    (hmove : ShutdownMove s phase phase' queue) (hs : s'.workers = s.workers) (hqueue : s'.queue = queue) :
    phase'.Ok s' := by
  have hleavers : s'.leavers = s.leavers := by rw [Pool.leavers, Pool.leavers, hs]
  cases hmove with
  | send hlt =>
    obtain ⟨-, hsent⟩ := h
    refine ⟨hlt.trans_eq (congrArg _ hs.symm), ?_⟩
    rw [Pool.queuedShutdowns, hqueue, List.countP_append, hleavers]
    change _ ≤ s.queuedShutdowns + 1 + _
    omega
  | sendFailed hlt hdisc =>
    refine ⟨hlt.trans_eq (congrArg _ hs.symm), ?_⟩
    rw [hleavers, Pool.leavers_eq_length hdisc]
    exact hlt.trans_le (Nat.le_add_left _ _)
  | allSent hle =>
    obtain ⟨-, hsent⟩ := h
    refine ⟨?_, fun w wk hw => nomatch hw⟩
    rw [hs, Pool.queuedShutdowns, hqueue, hleavers]
    exact hle.trans hsent
  | @joined next wk hwk hexited =>
    obtain ⟨hsent, hjoined⟩ := h
    refine ⟨?_, fun w wk' hw hwk' => ?_⟩
    · rw [hs, Pool.queuedShutdowns, hqueue, hleavers]
      exact hsent
    · rw [hs] at hwk'
      rcases Nat.lt_succ_iff_lt_or_eq.mp hw with hlt | rfl
      · exact hjoined w wk' hlt hwk'
      · rw [hwk] at hwk'
        cases hwk'
        exact hexited
  | allJoined hnone =>
    obtain ⟨-, hjoined⟩ := h
    change List.all _ _ = true
    rw [hs, List.all_eq_true]
    intro wk hwk
    obtain ⟨w, hw⟩ := List.mem_iff_getElem?.mp hwk
    refine hjoined w wk ?_ hw
    exact (List.getElem?_eq_some_iff.mp hw).1.trans_le (List.getElem?_eq_none_iff.mp hnone)

theorem shutdowns_of_step (hs : P.step s a = some s') (ha : a ≠ .shutdownWorkers)
    (hk : ∀ k, a ≠ .shutdown k) : s'.shutdowns = s.shutdowns := by
  cases a with
  | execute names sysPath array addr =>
    obtain ⟨-, rfl | ⟨d, zero, input, rfl⟩⟩ := begin_cases hs <;> rfl
  | call c =>
    obtain ⟨call, -, hstep⟩ := stepCall_cases hs
    cases hstep <;> rfl
  | worker w fault =>
    obtain ⟨wk, -, hstep⟩ := stepWorker_cases hs
    cases hstep with
    | startFailed | exit => exact Pool.exit_shutdowns
    | started | recvShutdown | recvTask | resolved | resolveFailed | element | elementFailed
    | elementsDone | finish | release => rfl
  | shutdownWorkers => exact absurd rfl ha
  | shutdown k => exact absurd rfl (hk k)
  | crash w =>
    obtain ⟨wk, -, rfl⟩ := crash_cases hs
    exact Pool.exit_shutdowns

theorem ShutdownsOk.step (h : ShutdownsOk s) (hs : P.step s a = some s') : ShutdownsOk s' := by
  have hsame : ∀ phase ∈ s.shutdowns, phase.Ok s' := fun phase hphase => (h phase hphase).step hs
  cases a with
  | shutdownWorkers =>
    intro phase hphase
    cases hs
    rcases List.mem_append.mp hphase with hold | hnew
    · exact hsame phase hold
    · cases List.mem_singleton.mp hnew
      exact ⟨Nat.zero_le _, Nat.zero_le _⟩
  | shutdown k =>
    obtain ⟨phase, phase', queue, hphase, hmove, rfl⟩ := shutdownMove_cases hs
    intro other hother
    rcases List.mem_or_eq_of_mem_set hother with hold | rfl
    · exact hsame other hold
    · exact hmove.ok (h phase (List.mem_of_getElem? hphase)) rfl rfl
  | execute | call | worker | crash =>
    rw [ShutdownsOk, shutdowns_of_step hs nofun nofun]
    exact hsame

theorem shutdownsOk_of_reachable {sysPath : List String} {starts : List Bool}
    (h : Reachable P.step (Pool.init sysPath starts) s) : ShutdownsOk s :=
  h.invariant (I := ShutdownsOk) nofun fun hI hs => hI.step hs

/-- A run of `shutdown_workers` is never stuck: if it cannot go on itself, a worker can. -/
theorem ShutdownsOk.moves (h : ShutdownsOk s) (hacc : Accounted s) (hshaped : AllShaped s)
    (hphase : s.shutdowns[k]? = some phase) (hne : phase ≠ .done) :
    ∃ a s', (a = .shutdown k ∨ ∃ w, a = .worker w none) ∧ P.step s a = some s' := by
  have hworker : ∀ {w : ℕ} {wk : Worker M Fn}, s.workers[w]? = some wk → ¬ s.Resting wk →
      ∃ a s', (a = .shutdown k ∨ ∃ w, a = .worker w none) ∧ P.step s a = some s' := by
    intro w wk hwk hbusy
    obtain ⟨s', hs'⟩ := stepWorker_enabled hacc hshaped hwk hbusy none
    exact ⟨.worker w none, s', .inr ⟨w, rfl⟩, hs'⟩
  have hself : ∀ {s' : Pool F M Fn}, s.stepShutdown k = some s' →
      ∃ a s', (a = .shutdown k ∨ ∃ w, a = .worker w none) ∧ P.step s a = some s' :=
    fun hs' => ⟨.shutdown k, _, .inl rfl, hs'⟩
  cases hstep : s.stepShutdown k with
  | some s' => exact hself hstep
  | none =>
    simp only [Pool.stepShutdown, hphase, bind, Option.bind_some] at hstep
    cases phase with
    | sending sent =>
      dsimp only at hstep
      split at hstep
      · split at hstep
        · cases hstep
        · split at hstep
          · cases hstep
          · obtain ⟨w, wk, hwk, hbusy⟩ := Pool.busy_of_full (Bool.eq_false_iff.mpr ‹_›) (not_lt.mp ‹_›)
            exact hworker hwk hbusy
      · cases hstep
    | joining next =>
      dsimp only at hstep
      split at hstep
      · cases hstep
      · rename_i wk hwk
        split at hstep
        · cases hstep
        · rename_i hlives
          apply hworker hwk
          rintro (hexited | ⟨hidle, hempty⟩)
          · exact hlives hexited
          · -- the messages are all taken, and each worker takes one
            have hsent := (h _ (List.mem_of_getElem? hphase)).1
            rw [Pool.queuedShutdowns, hempty, List.countP_nil, Nat.zero_add] at hsent
            have hall := List.countP_eq_length.mp (le_antisymm List.countP_le_length hsent)
            have hleaves := hall wk (List.mem_of_getElem? hwk)
            rw [hidle] at hleaves
            cases hleaves
    | done => exact absurd rfl hne

end Steps

/-! ## How many steps are left -/

def ShutdownPhase.work (workers : ℕ) : ShutdownPhase → ℕ
  | .sending sent => (workers - sent) * 3 + workers + 2
  | .joining next => workers - next + 1
  | .done => 0

/-- A bound on the steps that are left when no call and no shutdown is added. -/
def Pool.fullWork (s : Pool F M Fn) : ℕ :=
  s.work + (s.shutdowns.map (·.work s.workers.length)).sum

/-- A step of a thread that is there, or a panic of one. -/
def PoolAction.isOwn : PoolAction F → Bool
  | .call _ | .worker _ _ | .shutdown _ | .crash _ => true
  | .execute _ _ _ _ | .shutdownWorkers => false

section Work
variable {P : PyWorld F M Fn Obj} {s s' : Pool F M Fn} {a : PoolAction F} {w k : ℕ}
  {phase phase' : ShutdownPhase}

theorem ShutdownMove.work_lt {queue : List WorkerMessage} (h : ShutdownMove s phase phase' queue) :
    (queue.map WorkerMessage.work).sum + phase'.work s.workers.length <
      (s.queue.map WorkerMessage.work).sum + phase.work s.workers.length := by
  cases h with
  | send hlt =>
    simp only [List.map_append, List.sum_append, List.map_singleton, List.sum_singleton,
      WorkerMessage.work, ShutdownPhase.work]
    omega
  | sendFailed hlt | allSent hlt =>
    simp only [ShutdownPhase.work]
    omega
  | joined hwk =>
    have hlt := (List.getElem?_eq_some_iff.mp hwk).1
    simp only [ShutdownPhase.work]
    omega
  | allJoined =>
    simp only [ShutdownPhase.work]
    omega

theorem crash_work (h : s.crash w = some s') : s'.work < s.work := by
  obtain ⟨wk, hwk, h⟩ := Option.bind_eq_some_iff.mp h
  split at h
  · cases h
    exact Pool.exit_work_lt hwk (by simp [*, WorkerPhase.work])
  · cases h
    exact Pool.exit_work_lt hwk (by simp [*, WorkerPhase.work])
  · cases h
    exact Pool.exit_work_lt hwk (by simp [*, WorkerPhase.work])
  · cases h

theorem fullWork_lt_of_step (hshaped : AllShaped s) (ha : a.isOwn = true) (hs : P.step s a = some s') :
    s'.fullWork < s.fullWork := by
  have hworkers := workers_length_of_step hs
  cases a with
  | call | worker =>
    rw [Pool.fullWork, Pool.fullWork, hworkers, shutdowns_of_step hs nofun nofun]
    exact Nat.add_lt_add_right (work_lt_of_step hshaped rfl hs) _
  | crash =>
    rw [Pool.fullWork, Pool.fullWork, hworkers, shutdowns_of_step hs nofun nofun]
    exact Nat.add_lt_add_right (crash_work hs) _
  | shutdown k =>
    obtain ⟨phase, phase', queue, hphase, hmove, rfl⟩ := shutdownMove_cases hs
    have hset := sum_map_set (g := fun phase => phase.work s.workers.length) (b := phase') hphase
    have hlt := hmove.work_lt
    simp only [Pool.fullWork, Pool.work]
    omega
  | execute | shutdownWorkers => cases ha

end Work

section Ends
variable {P : PyWorld F M Fn Obj} {s s' : Pool F M Fn} {sysPath : List String} {starts : List Bool}
  {bs : List (PoolAction F)}

/-- **`shutdown_workers` comes to its end**, whatever happens beside it: the threads that are
there take a bounded number of steps, and where none of them can go on, every run of
`shutdown_workers` is through. When one is, no worker is left, the channel is empty, and a
call that is still sending fails. An import and a call of the function are one step each, so
both are taken to end, and the GIL, for which an import may wait, is left aside. -/
theorem shutdown_ends (h : Reachable P.step (Pool.init sysPath starts) s)
    (hrun : Run P.step (fun _ a => a.isOwn = true) s bs s') :
    bs.length ≤ s.fullWork ∧
    ((∀ a, a.isOwn = true → P.step s' a = none) → ∀ phase ∈ s'.shutdowns, phase = .done) ∧
    (.done ∈ s'.shutdowns → (∀ wk ∈ s'.workers, wk.phase.isExited = true) ∧ s'.queue = [] ∧
      ∀ (c : ℕ) call, s'.calls[c]? = some call → call.phase = .sending →
        call.done.length < call.chunks.length →
        s'.stepCall c = some (s'.setCall c { call with phase := .returned (.error sendError) })) := by
  have hreach : Reachable P.step (Pool.init sysPath starts) s' := h.trans hrun.reachable
  have hshutdowns := shutdownsOk_of_reachable hreach
  refine ⟨?_, fun hstuck phase hphase => ?_, fun hdone => ?_⟩
  · have hbound := hrun.induction (I := fun bs s' => AllShaped s' ∧ bs.length + s'.fullWork ≤ s.fullWork)
      ⟨allShaped_of_reachable h, by simp⟩ ?_
    · exact (Nat.le_add_right _ _).trans hbound.2
    · rintro as s₁ s₂ a - ⟨hshaped, hle⟩ ha hs
      have hlt := fullWork_lt_of_step hshaped ha hs
      refine ⟨hshaped.step hs, ?_⟩
      rw [List.length_append, List.length_singleton]
      omega
  · by_contra hne
    obtain ⟨k, hk⟩ := List.mem_iff_getElem?.mp hphase
    obtain ⟨a, s₁, ha, hs⟩ := hshutdowns.moves (P := P) (accounted_of_reachable hreach)
      (allShaped_of_reachable hreach) hk hne
    have howns : a.isOwn = true := by
      rcases ha with rfl | ⟨w, rfl⟩ <;> rfl
    rw [hstuck a howns] at hs
    cases hs
  · have hdisc : s'.disconnected = true := hshutdowns .done hdone
    have hdrained : Drained s' := hreach.invariant (fun _ => rfl) fun hI hs => hI.step hs
    refine ⟨List.all_eq_true.mp hdisc, hdrained hdisc, ?_⟩
    intro c call hcall hphase hlt
    simp only [Pool.stepCall, hcall, bind, Option.bind_some, hphase, hdisc, if_true]
    rw [List.getElem?_eq_getElem hlt]

end Ends

/-- A call has sent one of its two chunks, one of the two workers has not started, and
`shutdown_workers` runs twice. -/
def beforeShutdown : List (PoolAction (BitVec 64)) :=
  [.worker 0 none, .worker 1 none, .execute ("tasks", "inc") [] (.int64 [3, 4]) 4096, .call 0,
    .shutdownWorkers, .shutdownWorkers]

def duringShutdown : List (PoolAction (BitVec 64)) :=
  List.replicate 3 (.shutdown 0) ++ List.replicate 8 (.worker 0 none) ++
    List.replicate 6 (.shutdown 1) ++ List.replicate 3 (.shutdown 0)

theorem shutdown_ends_demo : ∃ s s' : DemoPool,
    Reachable bitWorld.step (Pool.init [] [true, false]) s ∧
    Run bitWorld.step (fun _ a => a.isOwn = true) s duringShutdown s' ∧
    s'.shutdowns = [.done, .done] ∧ duringShutdown.length ≤ s.fullWork ∧
    ∀ wk ∈ s'.workers, wk.phase.isExited = true := by
  obtain ⟨s, s', hs, hrun, hdone⟩ : ∃ s s' : DemoPool,
      Reachable bitWorld.step (Pool.init [] [true, false]) s ∧
      Run bitWorld.step (fun _ a => a.isOwn = true) s duringShutdown s' ∧
      s'.shutdowns = [.done, .done] :=
    ⟨_, _, ⟨beforeShutdown, run_of_exec rfl⟩, run_of_exec rfl, rfl⟩
  obtain ⟨hbound, -, hends⟩ := shutdown_ends hs hrun
  exact ⟨s, s', hs, hrun, hdone, hbound, (hends (by simp [hdone])).1⟩

end Gilmap
