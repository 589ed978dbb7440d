import Gilmap.Pool.Orphans

/-! # The buffers of a call outlive its tasks

Every task is in one place at most, the channel or a worker, and its slot is empty for as
long. So a call that has seen all its slots filled has no task left; and a call that failed
to send returned when no receiver, and with it no message, was left.
-/
namespace Gilmap
open Library
variable {F M Fn Obj : Type}

/-- In how many places a task is. -/
def Pool.heldCount (s : Pool F M Fn) (t : Task) : ℕ :=
  s.queue.count (.task t) + s.workers.countP (fun wk => wk.phase.pending? = some t)

/-- A task is held once, until it is answered. -/
def HeldOnce (s : Pool F M Fn) : Prop :=
  ∀ t, s.heldCount t ≤ 1 ∧ (0 < s.heldCount t → s.Unanswered t)

/-- A call waits past filled slots only, and returns when all are filled or nobody is left
to fill them. -/
def CallSettled (s : Pool F M Fn) (call : Call F) : Prop :=
  match call.phase with
  | .sending => True
  | .waiting next _ => ∀ k < next, call.done[k]? ≠ some none
  | .returned _ => (∀ k : ℕ, call.done[k]? ≠ some none) ∨ s.disconnected = true

section Steps
variable {P : PyWorld F M Fn Obj} {s s' : Pool F M Fn} {a : PoolAction F} {t : Task}
  {wk wk' : Worker M Fn} {w : ℕ}

theorem Pool.heldCount_pos : 0 < s.heldCount t ↔ s.Holds t := by
  rw [Pool.heldCount, Pool.Holds, Nat.add_pos_iff_pos_or_pos, List.count_pos_iff,
    List.countP_pos_iff]
  simp

theorem Pool.heldCount_congr (hw : s'.workers = s.workers) (hq : s'.queue = s.queue) :
    s'.heldCount t = s.heldCount t := by
  rw [Pool.heldCount, Pool.heldCount, hw, hq]

theorem Pool.heldCount_le (d : ℕ) (hwk : s.workers[w]? = some wk)
    (hw : s'.workers = s.workers.set w wk')
    (h : s'.queue.count (.task t) + (if wk'.phase.pending? = some t then 1 else 0) + d ≤
      s.queue.count (.task t) + if wk.phase.pending? = some t then 1 else 0) :
    s'.heldCount t + d ≤ s.heldCount t := by
  have hset := countP_set_add (p := fun wk => decide (wk.phase.pending? = some t)) (b := wk') hwk
  simp only [decide_eq_true_eq] at hset
  rw [Pool.heldCount, Pool.heldCount, hw]
  omega

theorem Pool.exit_heldCount (hwk : s.workers[w]? = some wk) :
    (s.exit w wk).heldCount t + (if wk.phase.pending? = some t then 1 else 0) ≤ s.heldCount t := by
  refine Pool.heldCount_le _ hwk Pool.exit_workers ?_
  rcases s.exit_queue w wk with hq | hq <;>
    simp [hq, WorkerPhase.pending?]

/-- A worker passes its task on to nobody, and takes one out of the channel at most. -/
theorem WorkerStep.heldCount {fault : Option (ℕ × String)} (hwk : s.workers[w]? = some wk)
    (h : WorkerStep P s w fault wk s') : s'.heldCount t ≤ s.heldCount t ∧
      ∀ r, wk.phase = .finishing t r → s'.heldCount t + 1 ≤ s.heldCount t := by
  cases h with
  | startFailed hphase | exit hphase =>
    exact ⟨(Nat.le_add_right ..).trans (Pool.exit_heldCount hwk),
      fun r hr => by simp [hphase] at hr⟩
  | recvShutdown hphase hqueue =>
    refine ⟨Pool.heldCount_le 0 hwk rfl ?_, fun r hr => by simp [hphase] at hr⟩
    simp [hqueue, WorkerPhase.pending?]
  | recvTask hphase hqueue =>
    refine ⟨Pool.heldCount_le 0 hwk rfl ?_, fun r hr => by simp [hphase] at hr⟩
    simp [hqueue, hphase, WorkerPhase.pending?, List.count_cons]
  | started hphase | resolved hphase | resolveFailed hphase | element hphase | elementFailed hphase
  | elementsDone hphase | release hphase =>
    refine ⟨Pool.heldCount_le 0 hwk rfl ?_, fun r hr => by simp [hphase] at hr⟩
    simp [hphase, WorkerPhase.pending?]
  | finish hphase =>
    refine ⟨Pool.heldCount_le 0 hwk rfl ?_, fun r hr => Pool.heldCount_le 1 hwk rfl ?_⟩
    · simp [WorkerPhase.pending?]
    · simp [hr, WorkerPhase.pending?]

/-- The places of a task after a step. -/
theorem heldCount_of_step (hs : P.step s a = some s') :
    (s'.heldCount t ≤ s.heldCount t ∨ Sends s t a ∧ s'.heldCount t = s.heldCount t + 1) ∧
      (Answers s t a → s'.heldCount t + 1 ≤ s.heldCount t) := by
  cases a with
  | execute names sysPath array addr =>
    refine ⟨.inl ?_, fun ⟨_, _, _, hw, _⟩ => nomatch hw⟩
    obtain ⟨-, rfl | ⟨d, zero, input, rfl⟩⟩ := begin_cases hs <;> exact le_rfl
  | call c =>
    refine ⟨?_, fun ⟨_, _, _, hw, _⟩ => nomatch hw⟩
    obtain ⟨call, hcall, hstep⟩ := stepCall_cases hs
    rcases hstep.channel hcall with ⟨hqueue, -⟩ | ⟨t', hsends, hqueue, -⟩
    · exact .inl (Pool.heldCount_congr hstep.workers hqueue).le
    · rw [Pool.heldCount, Pool.heldCount, hqueue, hstep.workers, List.count_append,
        List.count_singleton]
      by_cases he : t' = t
      · subst he
        exact .inr ⟨hsends, by simp; omega⟩
      · exact .inl (by simp [he])
  | worker w fault =>
    obtain ⟨wk, hwk, hstep⟩ := stepWorker_cases hs
    refine ⟨.inl (hstep.heldCount hwk).1, ?_⟩
    rintro ⟨w', wk', r, hw, hwk', hphase⟩
    cases hw
    rw [hwk] at hwk'
    cases hwk'
    exact (hstep.heldCount hwk).2 r hphase
  | shutdownWorkers =>
    cases hs
    exact ⟨.inl le_rfl, fun ⟨_, _, _, hw, _⟩ => nomatch hw⟩
  | shutdown k =>
    refine ⟨.inl ?_, fun ⟨_, _, _, hw, _⟩ => nomatch hw⟩
    cases stepShutdown_cases hs with
    | quiet => exact le_rfl
    | send =>
      rw [Pool.heldCount, Pool.heldCount, List.count_append]
      simp
  | crash w =>
    obtain ⟨wk, hwk, rfl⟩ := crash_cases hs
    have hexit := Pool.exit_heldCount (t := t) hwk
    refine ⟨.inl ((Nat.le_add_right ..).trans hexit), ?_⟩
    rintro ⟨w', wk', r, hw, hwk', hphase⟩
    cases hw
    rw [hwk] at hwk'
    cases hwk'
    simpa [hphase, WorkerPhase.pending?] using hexit

theorem HeldOnce.step (h : HeldOnce s) (hacc : Accounted s) (hs : P.step s a = some s') :
    HeldOnce s' := by
  intro t
  obtain ⟨hle, hlt⟩ := heldCount_of_step (t := t) hs
  rcases hle with hle | ⟨hsends, heq⟩
  · refine ⟨hle.trans (h t).1, fun hpos => ?_⟩
    refine unanswered_stays hacc ((h t).2 (hpos.trans_le hle)) (fun ha => ?_) hs
    have := (h t).1
    have := hlt ha
    omega
  · have hzero : s.heldCount t = 0 := by
      by_contra hne
      obtain ⟨call, hat⟩ := hacc.held t (Pool.heldCount_pos.mp (Nat.pos_of_ne_zero hne))
      exact hsends.not_taskAt call hat
    exact ⟨by omega, fun _ => hsends.unanswered hs⟩

/-! ## Channels without receivers -/

theorem Pool.isExited_of (h : s.disconnected = true) (hwk : s.workers[w]? = some wk) :
    wk.phase.isExited = true :=
  List.all_eq_true.mp h wk (List.mem_of_getElem? hwk)

/-- A worker that has exited takes no step. -/
theorem not_isExited_of_step (hs : P.step s a = some s') (ha : a.worker? = some w)
    (hwk : s.workers[w]? = some wk) : wk.phase.isExited = false := by
  cases a with
  | worker w' fault =>
    cases ha
    obtain ⟨wk', hwk', hstep⟩ := stepWorker_cases hs
    rw [hwk] at hwk'
    cases hwk'
    cases hstep with
    | started hphase | startFailed hphase | recvShutdown hphase | recvTask hphase | resolved hphase
    | resolveFailed hphase | element hphase | elementFailed hphase | elementsDone hphase
    | finish hphase | release hphase | exit hphase => simp [hphase, WorkerPhase.isExited]
  | crash w' =>
    cases ha
    simp only [PyWorld.step, Pool.crash, hwk, bind, Option.bind_some] at hs
    split at hs
    · simp [*, WorkerPhase.isExited]
    · simp [*, WorkerPhase.isExited]
    · simp [*, WorkerPhase.isExited]
    · cases hs
  | execute | call | shutdownWorkers | shutdown => cases ha

/-- Nobody receives from a channel again once all receivers are dropped. -/
theorem workers_of_disconnected (hs : P.step s a = some s') (h : s.disconnected = true) :
    s'.workers = s.workers := by
  apply List.ext_getElem?
  intro w
  by_cases ha : a.worker? = some w
  · cases hwk : s.workers[w]? with
    | some wk =>
      have hexit := not_isExited_of_step hs ha hwk
      rw [Pool.isExited_of h hwk] at hexit
      cases hexit
    | none =>
      cases a with
      | worker w' fault =>
        cases ha
        obtain ⟨wk, hwk', -⟩ := stepWorker_cases hs
        rw [hwk] at hwk'
        cases hwk'
      | crash w' =>
        cases ha
        obtain ⟨wk, hwk', -⟩ := crash_cases hs
        rw [hwk] at hwk'
        cases hwk'
      | execute | call | shutdownWorkers | shutdown => cases ha
  · exact step_others hs ha

theorem disconnected_stays (hs : P.step s a = some s') (h : s.disconnected = true) :
    s'.disconnected = true := by
  rw [Pool.disconnected, workers_of_disconnected hs h]
  exact h

/-- Nothing is left in a channel without receivers. -/
def Drained (s : Pool F M Fn) : Prop := s.disconnected = true → s.queue = []

theorem Pool.exit_drops (w : ℕ) (wk : Worker M Fn) : Drained (s.exit w wk) := by
  intro hdisc
  unfold Pool.exit at hdisc ⊢
  dsimp only at hdisc ⊢
  split at hdisc
  · rename_i h
    rw [if_pos h]
  · rename_i h
    exact absurd hdisc h

theorem WorkerStep.drained {fault : Option (ℕ × String)} (hwk : s.workers[w]? = some wk)
    (h : WorkerStep P s w fault wk s') : Drained s' := by
  have hlive : ∀ {wk' : Worker M Fn}, wk'.phase.isExited = false →
      s'.workers = s.workers.set w wk' → Drained s' := by
    intro wk' hphase hw hdisc
    rw [Pool.connected_of (by rw [hw]; exact (getElem?_set_some hwk).trans (if_pos rfl)) hphase]
      at hdisc
    cases hdisc
  cases h with
  | startFailed | exit => exact Pool.exit_drops w wk
  | started | recvShutdown | recvTask | resolved | resolveFailed | element | elementFailed
  | elementsDone | finish | release => exact hlive rfl rfl

theorem Drained.step (h : Drained s) (hs : P.step s a = some s') : Drained s' := by
  cases a with
  | execute names sysPath array addr =>
    obtain ⟨-, rfl | ⟨d, zero, input, rfl⟩⟩ := begin_cases hs <;> exact h
  | call c =>
    obtain ⟨call, hcall, hstep⟩ := stepCall_cases hs
    rcases hstep.channel hcall with ⟨hqueue, -⟩ | ⟨t, hsends, -, -⟩
    · rw [Drained, hqueue, Pool.disconnected, hstep.workers]
      exact h
    · intro hdisc
      rw [Pool.disconnected, hstep.workers] at hdisc
      exact nomatch hsends.2.1.symm.trans hdisc
  | worker w fault =>
    obtain ⟨wk, hwk, hstep⟩ := stepWorker_cases hs
    exact hstep.drained hwk
  | shutdownWorkers =>
    cases hs
    exact h
  | shutdown k =>
    cases stepShutdown_cases hs with
    | quiet => exact h
    | send _ hconn => exact fun hdisc => nomatch hconn.symm.trans hdisc
  | crash w =>
    obtain ⟨wk, hwk, rfl⟩ := crash_cases hs
    exact Pool.exit_drops w wk

/-! ## Returned calls -/

def AllSettled (s : Pool F M Fn) : Prop :=
  ∀ (c : ℕ) call, s.calls[c]? = some call → CallSettled s call

theorem CallSettled.mono {call : Call F} {results} {done : List (Option TaskResult)} (h : CallSettled s call)
    (hd : s.disconnected = true → s'.disconnected = true)
    (hdone : ∀ k : ℕ, call.done[k]? ≠ some none → done[k]? ≠ some none) :
    CallSettled s' { call with results := results, done := done } := by
  unfold CallSettled at h ⊢
  cases hphase : call.phase with
  | sending => trivial
  | waiting next firstError =>
    rw [hphase] at h
    exact fun k hk => hdone k (h k hk)
  | returned result =>
    rw [hphase] at h
    rcases h with h | h
    · exact .inl fun k => hdone k (h k)
    · exact .inr (hd h)

theorem CallStep.settled {c : ℕ} {call : Call F} (h : AllSettled s) (hcall : s.calls[c]? = some call)
    (hstep : CallStep s c call s') : AllSettled s' := by
  have hdisc : s'.disconnected = s.disconnected := by
    rw [Pool.disconnected, Pool.disconnected, hstep.workers]
  have hset : ∀ {call'}, s'.calls = s.calls.set c call' → CallSettled s' call' → AllSettled s' := by
    intro call' hcalls hnew c' call₁ hc
    rw [hcalls] at hc
    rcases getElem?_set_cases hc with hold | rfl
    · exact (h c' call₁ hold).mono (fun hd => hdisc ▸ hd) fun _ hk => hk
    · exact hnew
  have hold := h c call hcall
  cases hstep with
  | allSent => exact hset rfl fun k hk => absurd hk (Nat.not_lt_zero k)
  | sendFailed _ _ hconn => exact hset rfl (.inr hconn)
  | send hphase =>
    refine hset rfl ?_
    unfold CallSettled
    rw [show ({ call with done := call.done ++ [none] } : Call F).phase = .sending from hphase]
    trivial
  | @finish next firstError hphase hend =>
    unfold CallSettled at hold
    rw [hphase] at hold
    refine hset rfl (.inl fun k hk => ?_)
    by_cases hlt : k < next
    · exact hold k hlt hk
    · rw [List.getElem?_eq_none ((List.getElem?_eq_none_iff.mp hend).trans (not_lt.mp hlt))] at hk
      cases hk
  | waitOk hphase hslot | waitErr hphase hslot =>
    unfold CallSettled at hold
    rw [hphase] at hold
    apply hset rfl
    intro k hk
    rcases Nat.lt_succ_iff_lt_or_eq.mp hk with hlt | rfl
    · exact hold k hlt
    · rw [hslot]
      exact nofun

theorem AllSettled.step (h : AllSettled s) (hs : P.step s a = some s') : AllSettled s' := by
  have hd := disconnected_stays hs
  have hsame : s'.calls = s.calls → AllSettled s' := fun hcalls c call hc =>
    (h c call (hcalls ▸ hc)).mono hd fun _ hk => hk
  cases a with
  | execute names sysPath array addr =>
    obtain ⟨-, rfl | ⟨d, zero, input, rfl⟩⟩ := begin_cases hs
    · exact h
    · intro c call hc
      rcases getElem?_concat_cases hc with hold | rfl
      · exact (h c call hold).mono hd fun _ hk => hk
      · trivial
  | call c =>
    obtain ⟨call, hcall, hstep⟩ := stepCall_cases hs
    exact hstep.settled h hcall
  | worker w fault =>
    obtain ⟨wk, -, hstep⟩ := stepWorker_cases hs
    cases hstep with
    | element _ hcall =>
      intro c call₁ hc
      rcases getElem?_set_cases hc with hold | rfl
      · exact (h c call₁ hold).mono hd fun _ hk => hk
      · exact (h _ _ hcall).mono hd fun _ hk => hk
    | finish _ hcall =>
      intro c call₁ hc
      rcases getElem?_set_cases hc with hold | rfl
      · exact (h c call₁ hold).mono hd fun _ hk => hk
      · apply (h _ _ hcall).mono hd
        intro k hk hnone
        rcases getElem?_set_cases hnone with hold | hnew
        · exact hk hold
        · cases hnew
    | startFailed | exit => exact hsame Pool.exit_calls
    | started | recvShutdown | recvTask | resolved | resolveFailed | elementFailed | elementsDone
    | release => exact hsame rfl
  | shutdownWorkers =>
    cases hs
    exact h
  | shutdown k => cases stepShutdown_cases hs <;> exact hsame rfl
  | crash w =>
    obtain ⟨wk, -, rfl⟩ := crash_cases hs
    exact hsame Pool.exit_calls

/-- **The buffers of a call outlive its tasks**: once it has returned, no worker runs a task
of the call and none is left in the channel. -/
theorem buffers_outlive_tasks {sysPath : List String} {starts : List Bool} {c : ℕ} {call : Call F}
    (h : Reachable P.step (Pool.init sysPath starts) s) (hcall : s.calls[c]? = some call)
    (hret : call.returned = true) :
    (∀ wk ∈ s.workers, ∀ t, wk.phase.pending? = some t → t.call ≠ c) ∧
      ∀ t, .task t ∈ s.queue → t.call ≠ c := by
  obtain ⟨-, honce, hdrained, hsettled⟩ : Accounted s ∧ HeldOnce s ∧ Drained s ∧ AllSettled s := by
    refine h.invariant (I := fun s => Accounted s ∧ HeldOnce s ∧ Drained s ∧ AllSettled s) ?_ ?_
    · have hacc₀ : Accounted (Pool.init sysPath starts : Pool F M Fn) := .init sysPath starts
      refine ⟨hacc₀, fun t => ?_, fun _ => rfl, fun c call hc => ?_⟩
      · have hzero : (Pool.init sysPath starts : Pool F M Fn).heldCount t = 0 := by
          by_contra hne
          obtain ⟨call, hc, -⟩ := hacc₀.held t (Pool.heldCount_pos.mp (Nat.pos_of_ne_zero hne))
          simp [Pool.init] at hc
        rw [hzero]
        exact ⟨Nat.zero_le 1, fun hpos => absurd hpos (Nat.lt_irrefl 0)⟩
      · simp [Pool.init] at hc
    · rintro s s' a ⟨hacc, honce, hdrained, hsettled⟩ hs
      exact ⟨hacc.step hs, honce.step hacc hs, hdrained.step hs, hsettled.step hs⟩
  have hfree : ∀ t, s.Holds t → t.call ≠ c := by
    rintro t hholds rfl
    obtain ⟨call', ⟨hcall', -⟩, hnone⟩ := (honce t).2 (Pool.heldCount_pos.mpr hholds)
    rw [hcall] at hcall'
    cases hcall'
    have hset := hsettled _ call hcall
    unfold CallSettled at hset
    unfold Call.returned at hret
    split at hret
    · rename_i hphase
      rw [hphase] at hset
      rcases hset with hfilled | hdisc
      · exact hfilled _ hnone
      · -- all receivers are dropped: the channel is empty and no worker runs anything
        rcases hholds with hq | ⟨wk, hwk, hp⟩
        · rw [hdrained hdisc] at hq
          cases hq
        · have hexit := List.all_eq_true.mp hdisc wk hwk
          cases hphase : wk.phase <;>
            simp [hphase, WorkerPhase.isExited, WorkerPhase.pending?] at hexit hp
    · cases hret
    · cases hret
  exact ⟨fun wk hwk t ht => hfree t (.inr ⟨wk, hwk, ht⟩), fun t ht => hfree t (.inl ht)⟩

end Steps

/-- The second send fails after a panic in the worker that ran the first chunk. -/
theorem buffers_outlive_tasks_panic : ∃ s : DemoPool,
    Reachable demoWorld.step (Pool.init [] [true]) s ∧ (∃ call, s.calls[0]? = some call ∧
      call.returned = true ∧ call.done = [none]) ∧
      (∀ wk ∈ s.workers, ∀ t, wk.phase.pending? = some t → t.call ≠ 0) ∧
      ∀ t, .task t ∈ s.queue → t.call ≠ 0 := by
  obtain ⟨s, hs, hcall⟩ : ∃ s : DemoPool, Run demoWorld.step (fun _ _ => True) (Pool.init [] [true])
      [.execute ("tasks", "inc") [] (.int64 [3, 4]) 4096, .worker 0 none, .call 0, .worker 0 none,
        .worker 0 none, .crash 0, .call 0] s ∧
      ∃ call, s.calls[0]? = some call ∧ call.returned = true ∧ call.done = [none] :=
    ⟨_, run_of_exec rfl, _, rfl, rfl, rfl⟩
  have hreach := hs.reachable
  obtain ⟨call, hc, hret, hdone⟩ := hcall
  exact ⟨s, hreach, ⟨call, hc, hret, hdone⟩, buffers_outlive_tasks hreach hc hret⟩

end Gilmap
