import Gilmap.Pool.Wakeups

/-! # `execute` with its mutexes

The threads of a pool with its mutexes take finitely many steps between two wake-ups without
a notification, and they do not stop before every call has returned: with what the
sequential loop gives.
-/
namespace Gilmap
open Library
variable {F M Fn Obj : Type}

/-! ## How many steps are left -/

/-- The slots that the calls will use, for a list of their numbers of chunks. -/
def chunkSlots (sizes : List ℕ) : Finset (ℕ × ℕ) :=
  (sizes.zipIdx.flatMap fun p => (List.range p.1).map fun k => (p.2, k)).toFinset

def Pool.slots (s : Pool F M Fn) : Finset (ℕ × ℕ) := chunkSlots (s.calls.map (·.chunks.length))

/-- A bound on the steps that the threads can take on their own, without wake-ups. -/
def LockedPool.work (s : LockedPool F M Fn) : ℕ :=
  s.pool.work + ∑ p ∈ s.pool.slots, (s.cells p).work

section Work
variable {P : PyWorld F M Fn Obj} {s s' : LockedPool F M Fn} {pool : Pool F M Fn} {call : Call F}
  {wk : Worker M Fn} {c k w : ℕ} {p : ℕ × ℕ} {cell : OneShot TaskResult} {fault : Option (ℕ × String)}

theorem mem_slots : p ∈ s.pool.slots ↔
    ∃ call, s.pool.calls[p.1]? = some call ∧ p.2 < call.chunks.length := by
  obtain ⟨c, k⟩ := p
  simp only [Pool.slots, chunkSlots, List.mem_toFinset, List.mem_flatMap, List.mem_map, List.mem_range,
    List.mem_zipIdx_iff_getElem?, List.getElem?_map, Prod.mk.injEq, Option.map_eq_some_iff]
  constructor
  · rintro ⟨⟨n, i⟩, ⟨call, hcall, rfl⟩, j, hj, rfl, rfl⟩
    exact ⟨call, hcall, hj⟩
  · rintro ⟨call, hcall, hk⟩
    exact ⟨⟨call.chunks.length, c⟩, ⟨call, hcall, rfl⟩, k, hk, rfl, rfl⟩

/-- A slot in use is a slot. -/
theorem CellsOk.mem_slots (h : CellsOk s) (hshaped : AllShaped s.pool)
    (hcall : s.pool.calls[c]? = some call)
    (hused : (s.cells (c, k)).waiter ≠ .outside ∨ k < call.done.length) : (c, k) ∈ s.pool.slots := by
  refine Gilmap.mem_slots.mpr ⟨call, hcall, ?_⟩
  refine lt_of_lt_of_le ?_ (hshaped c call hcall).sent
  rcases hused with hne | hlt
  · by_contra hge
    exact hne ((h.calls k hcall).unsent (not_lt.mp hge))
  · exact hlt

/-- A cell that was stored to belongs to a chunk that was sent. -/
theorem CellsOk.sent_of_stored (h : CellsOk s) (hp : (s.cells p).storer.hasStored = true) :
    ∃ call, s.pool.calls[p.1]? = some call ∧ p.2 < call.done.length := by
  cases hcall : s.pool.calls[p.1]? with
  | none =>
    rw [show s.cells p = .fresh from h.fresh p.2 hcall] at hp
    cases hp
  | some call =>
    refine ⟨call, rfl, ?_⟩
    have hfilled := (h.calls p.2 hcall).shows.filled
    by_contra hge
    rw [List.getElem?_eq_none (not_lt.mp hge), show (s.cells (p.1, p.2)) = s.cells p from rfl, hp]
      at hfilled
    cases hfilled

theorem sum_setCell (cell : OneShot TaskResult) (hp : p ∈ s.pool.slots) :
    (∑ q ∈ s.pool.slots, ((s.setCell p cell).cells q).work) + (s.cells p).work =
      (∑ q ∈ s.pool.slots, (s.cells q).work) + cell.work := by
  have hupdate : (fun q => ((s.setCell p cell).cells q).work) =
      Function.update (fun q => (s.cells q).work) p cell.work := by
    funext q
    exact Function.apply_update (fun _ cell => OneShot.work cell) s.cells p cell q
  rw [hupdate, Finset.sum_update_of_mem hp,
    Finset.sum_eq_add_sum_sdiff_singleton_of_mem hp fun q => (s.cells q).work]
  omega

/-- No step of a thread adds a chunk. -/
theorem slots_of_thread {q q' : Pool F M Fn} {a : PoolAction F} (ha : a.isThread = true)
    (hs : P.step q a = some q') : q'.slots = q.slots := by
  unfold Pool.slots
  refine congrArg chunkSlots ?_
  cases a with
  | call c =>
    obtain ⟨call, hcall, hstep⟩ := stepCall_cases hs
    cases hstep <;> exact map_set_of_eq hcall rfl
  | worker w fault =>
    obtain ⟨wk, -, hstep⟩ := stepWorker_cases hs
    cases hstep with
    | element _ hcall | finish _ hcall => exact map_set_of_eq hcall rfl
    | startFailed | exit => rw [Pool.exit_calls]
    | started | recvShutdown | recvTask | resolved | resolveFailed | elementFailed | elementsDone
    | release => rfl
  | execute | shutdownWorkers | shutdown | crash => cases ha

/-- A thread's step is one of the pool alone, or one at a cell with or without the pool. -/
theorem cells_of_thread {a : PoolAction F} (hok : s.Ok) (hshaped : AllShaped s.pool)
    (ha : a.isThread = true) (hs : P.lockedStep s (.pool a) = some s') :
    (s'.cells = s.cells ∧ P.step s.pool a = some s'.pool) ∨ ∃ p b cell, p ∈ s.pool.slots ∧
      (s.cells p).step b = some cell ∧ b ≠ .wake ∧ s'.cells = (s.setCell p cell).cells := by
  cases a with
  | call c =>
    obtain ⟨call, hcall, hstep⟩ := lockedCall_cases hs
    cases hstep with
    | plain _ hpool => exact .inl ⟨rfl, hpool⟩
    | leave _ hcell =>
      refine .inr ⟨_, _, _, hok.cells.mem_slots hshaped hcall (.inl ?_), hcell, nofun, rfl⟩
      cases OneShot.step_cases hcell with
      | leave htaken =>
        rw [htaken]
        exact nofun
    | look _ _ hlt hb hcell =>
      refine .inr ⟨_, _, _, hok.cells.mem_slots hshaped hcall (.inr hlt), hcell, ?_, rfl⟩
      rcases hb with rfl | rfl <;> exact nofun
    | take _ _ hlt _ _ hcell =>
      exact .inr ⟨_, _, _, hok.cells.mem_slots hshaped hcall (.inr hlt), hcell, nofun, rfl⟩
  | worker w fault =>
    obtain ⟨wk, hwk, hstep⟩ := lockedWorker_cases hs
    cases hstep with
    | plain _ _ hpool => exact .inl ⟨rfl, hpool⟩
    | lock hphase hcell =>
      obtain ⟨call, hat⟩ := hok.accounted.taskAt hwk hphase
      exact .inr ⟨_, _, _, hok.cells.mem_slots hshaped hat.1 (.inr hat.2.2), hcell, nofun, rfl⟩
    | store hphase hcell hpool =>
      obtain ⟨call, hat⟩ := hok.accounted.taskAt hwk hphase
      exact .inr ⟨_, _, _, hok.cells.mem_slots hshaped hat.1 (.inr hat.2.2), hcell, nofun, rfl⟩
    | tell hphase hb hcell =>
      obtain ⟨call, hcall, hlt⟩ := hok.cells.sent_of_stored (hok.cells.released hwk hphase)
      refine .inr ⟨_, _, _, hok.cells.mem_slots hshaped hcall (.inr hlt), hcell, ?_, rfl⟩
      rcases hb with rfl | rfl <;> exact nofun
  | execute | shutdownWorkers | shutdown | crash => cases ha

theorem work_lt_of_thread {a : PoolAction F} (hok : s.Ok) (hshaped : AllShaped s.pool)
    (ha : a.isThread = true) (hs : P.lockedStep s (.pool a) = some s') : s'.work < s.work := by
  have hpool : s'.pool.work ≤ s.pool.work ∧ s'.pool.slots = s.pool.slots := by
    rcases hok.cells.refines hs with hsame | ⟨b, hb, hstep⟩
    · rw [hsame]
      exact ⟨le_rfl, rfl⟩
    · cases hb
      exact ⟨(work_lt_of_step hshaped ha hstep).le, slots_of_thread ha hstep⟩
  simp only [LockedPool.work, hpool.2]
  rcases cells_of_thread hok hshaped ha hs with ⟨hcells, hstep⟩ | ⟨p, b, cell, hp, hcell, hb, hcells⟩
  · rw [hcells]
    exact Nat.add_lt_add_right (work_lt_of_step hshaped ha hstep) _
  · have hsum := sum_setCell cell hp
    have hlt := OneShot.work_lt_of_step hcell hb
    rw [hcells]
    omega

theorem work_of_wake (hok : s.Ok) (hshaped : AllShaped s.pool)
    (hs : P.lockedStep s (.wake c) = some s') : s'.work = s.work + 2 := by
  obtain ⟨call, next, firstError, cell, hcall, hphase, hcell, rfl⟩ := wake_cases hs
  have hp : (c, next) ∈ s.pool.slots := by
    refine hok.cells.mem_slots hshaped hcall (.inl ?_)
    cases OneShot.step_cases hcell with
    | wake hasleep =>
      rw [hasleep]
      exact nofun
  have hsum := sum_setCell cell hp
  have hwork := OneShot.work_of_wake hcell
  simp only [LockedPool.work]
  change s.pool.work + ∑ q ∈ s.pool.slots, ((s.setCell (c, next) cell).cells q).work = _
  omega

end Work

/-! ## Who can take a step -/

section Progress
variable {P : PyWorld F M Fn Obj} {s : LockedPool F M Fn} {call : Call F} {wk : Worker M Fn}
  {c k w : ℕ} {p : ℕ × ℕ} {t : Task}

/-- Some caller or worker can go on. -/
def LockedPool.Moves (P : PyWorld F M Fn Obj) (s : LockedPool F M Fn) : Prop :=
  ∃ a s', a.isThread = true ∧ P.lockedStep s (.pool a) = some s'

theorem moves_of_call {s' : LockedPool F M Fn} (h : s.stepCall c = some s') : s.Moves P :=
  ⟨.call c, s', rfl, h⟩

theorem moves_of_worker {s' : LockedPool F M Fn} {fault : Option (ℕ × String)}
    (h : s.stepWorker P w fault = some s') : s.Moves P :=
  ⟨.worker w fault, s', rfl, h⟩

theorem exists_onCell {a : OneShotAction TaskResult} {cell : OneShot TaskResult}
    (h : (s.cells p).step a = some cell) : ∃ s', s.onCell p a = some s' :=
  ⟨s.setCell p cell, by rw [LockedPool.onCell, h]; rfl⟩

/-- A caller drops the guard that it holds. -/
theorem Moves.leave {next : ℕ} {firstError : Option String} (hcall : s.pool.calls[c]? = some call)
    (hphase : call.phase = .waiting (next + 1) firstError)
    (htaken : (s.cells (c, next)).waiter = .taken) : s.Moves P := by
  suffices h : ∃ s', s.stepCall c = some s' from h.elim fun s' hs => moves_of_call hs
  simp only [LockedPool.stepCall, hcall, hphase, bind, Option.bind_some, Nat.add_sub_cancel,
    Nat.succ_pos, htaken, and_self, if_true]
  exact exists_onCell (if_pos htaken)

/-- Once no guard is left, it is up to the next slot. -/
theorem Moves.dropped {next : ℕ} {firstError : Option String} (hcall : s.pool.calls[c]? = some call)
    (hphase : call.phase = .waiting next firstError) (h : s.Dropped c next → s.Moves P) :
    s.Moves P := by
  by_cases hdropped : s.Dropped c next
  · exact h hdropped
  · obtain ⟨hpos, htaken⟩ := not_not.mp hdropped
    obtain ⟨next, rfl⟩ := Nat.exists_eq_succ_of_ne_zero hpos.ne'
    exact Moves.leave hcall hphase htaken

/-- A caller that has locked a mutex looks into the slot. -/
theorem Moves.checking {next : ℕ} {firstError : Option String} (hcall : s.pool.calls[c]? = some call)
    (hphase : call.phase = .waiting next firstError) (hdropped : s.Dropped c next)
    (hlt : next < call.done.length) (hchecking : (s.cells (c, next)).waiter = .checking) :
    s.Moves P := by
  suffices h : ∃ s', s.stepCall c = some s' from h.elim fun s' hs => moves_of_call hs
  simp only [LockedPool.stepCall, hcall, hphase, bind, Option.bind_some, hchecking]
  rw [if_neg hdropped, if_pos hlt]
  cases hvalue : (s.cells (c, next)).value with
  | none => exact exists_onCell (if_pos ⟨hchecking, by rw [hvalue]; rfl⟩)
  | some result =>
    have htake := exists_onCell (s := s) (p := (c, next)) (a := .take)
      (if_pos ⟨hchecking, by rw [hvalue]; rfl⟩)
    obtain ⟨s', hs'⟩ := htake
    simp only [hs', Option.bind_some]
    exact ⟨_, rfl⟩

/-- A worker that is telling of a slot can go on. -/
theorem Moves.releasing (hwk : s.pool.workers[w]? = some wk) (hphase : wk.phase = .releasing t) :
    s.Moves P := by
  have hpool : s.pool.stepWorker P w none = some (s.pool.setPhase w wk .idle) := by
    simp only [Pool.stepWorker, hwk, hphase, bind, Option.bind_some]
  suffices h : ∃ s', s.stepWorker P w none = some s' from h.elim fun s' hs => moves_of_worker hs
  simp only [LockedPool.stepWorker, hwk, hphase, bind, Option.bind_some, hpool]
  split
  · exact exists_onCell (if_pos ‹_›)
  · exact exists_onCell (if_pos ‹_›)
  · exact ⟨_, rfl⟩

/-- The owner of a mutex can go on. -/
theorem LockedPool.Ok.owner_moves (hok : s.Ok) (hshaped : AllShaped s.pool)
    (hcall : s.pool.calls[c]? = some call) (hlocked : (s.cells (c, k)).locked = true) : s.Moves P := by
  rw [(hok.cells.calls k hcall).shows.locked, Bool.or_eq_true] at hlocked
  rcases hlocked with hstorer | hwaiter
  · obtain ⟨w, wk, hwk, hat⟩ := hok.cells.stores (c, k) hstorer
    cases hst : (s.cells (c, k)).storer with
    | outside | done =>
      rw [hst] at hstorer
      cases hstorer
    | stored | notified =>
      rw [hst] at hat
      obtain ⟨t, hphase, -⟩ := hat
      exact Moves.releasing hwk hphase
    | holding =>
      rw [hst] at hat
      obtain ⟨t, r, hphase, hcell⟩ := hat
      have hbusy : ¬ s.pool.Resting wk := by
        rintro (hexit | ⟨hidle, -⟩)
        · rw [hphase] at hexit
          cases hexit
        · rw [hphase] at hidle
          cases hidle
      obtain ⟨pool, hpool⟩ := stepWorker_enabled (P := P) hok.accounted hshaped hwk hbusy none
      have hpool' : s.pool.stepWorker P w none = some pool := hpool
      suffices h : ∃ s', s.stepWorker P w none = some s' from h.elim fun s' hs => moves_of_worker hs
      simp only [LockedPool.stepWorker, hwk, hphase, bind, Option.bind_some, hcell, hst, hpool',
        LockedPool.onCell, OneShot.step, if_true, Option.map_some, LockedPool.onPool]
      exact ⟨_, rfl⟩
  · -- the caller is at this slot, or has just taken its result
    have hw := (hok.cells.calls k hcall).waits
    cases hphase : call.phase with
    | sending =>
      rw [hphase] at hw
      rw [show (s.cells (c, k)).waiter = .outside from hw] at hwaiter
      cases hwaiter
    | returned result =>
      rw [hphase] at hw
      rcases hw with hw | hw <;> rw [hw] at hwaiter <;> cases hwaiter
    | waiting next firstError =>
      rw [hphase] at hw
      dsimp only [CallPhase.WaiterOk] at hw
      split_ifs at hw with hbefore hprev hnext
      · rw [hw] at hwaiter
        cases hwaiter
      · subst hprev
        refine Moves.leave hcall hphase ?_
        cases hv : (s.cells (c, k)).waiter with
        | taken => rfl
        | checking =>
          rw [hv] at hw
          cases hw
        | outside | asleep | woken | done =>
          rw [hv] at hwaiter
          cases hwaiter
      · subst hnext
        have hchecking : (s.cells (c, k)).waiter = .checking := by
          cases hv : (s.cells (c, k)).waiter with
          | checking => rfl
          | taken =>
            rw [hv] at hw
            cases hw
          | outside | asleep | woken | done =>
            rw [hv] at hwaiter
            cases hwaiter
        apply Moves.dropped hcall hphase
        intro hdropped
        refine Moves.checking hcall hphase hdropped ?_ hchecking
        by_contra hge
        rw [(hok.cells.calls k hcall).unsent (not_lt.mp hge)] at hchecking
        cases hchecking
      · rw [hw] at hwaiter
        cases hwaiter

/-- A worker that is not at rest can go on, or the caller that it waits for. -/
theorem LockedPool.Ok.worker_moves (hok : s.Ok) (honce : HeldOnce s.pool) (hshaped : AllShaped s.pool)
    (hwk : s.pool.workers[w]? = some wk) (hbusy : ¬ s.pool.Resting wk) : s.Moves P := by
  obtain ⟨pool, hpool⟩ := stepWorker_enabled (P := P) hok.accounted hshaped hwk hbusy none
  have hpool' : s.pool.stepWorker P w none = some pool := hpool
  cases hphase : wk.phase with
  | releasing t => exact Moves.releasing hwk hphase
  | finishing t r =>
    obtain ⟨call, hcall, hchunk, hslot⟩ := hok.accounted.taskAt hwk hphase
    by_cases hlocked : (s.cells t.cell).locked = true
    · exact hok.owner_moves hshaped hcall hlocked
    · -- the slot is empty, so that nobody has been here yet
      obtain ⟨call₁, ⟨hcall₁, -⟩, hnone⟩ := (honce t).2 (Pool.heldCount_pos.mpr
        (.inr ⟨wk, List.mem_of_getElem? hwk, by rw [hphase]; rfl⟩))
      rw [hcall] at hcall₁
      cases hcall₁
      have hshows := (hok.cells.calls t.slot hcall).shows
      have hfilled := hshows.filled
      have hfree := hshows.locked
      rw [hnone] at hfilled
      have houtside : (s.cells t.cell).storer = .outside := by
        change _ = (s.cells t.cell).storer.hasStored at hfilled
        change (s.cells t.cell).locked = _ at hfree
        cases hst : (s.cells t.cell).storer with
        | outside => rfl
        | holding =>
          rw [show (s.cells (t.call, t.slot)).storer = .holding from hst] at hfree
          exact absurd hfree hlocked
        | stored | notified | done =>
          rw [hst] at hfilled
          cases hfilled
      suffices h : ∃ s', s.stepWorker P w none = some s' from h.elim fun s' hs => moves_of_worker hs
      simp only [LockedPool.stepWorker, hwk, hphase, bind, Option.bind_some, houtside]
      exact exists_onCell (if_pos ⟨houtside, Bool.eq_false_iff.mpr hlocked⟩)
  | starting | idle | resolving | running | exiting | exited =>
    suffices h : ∃ s', s.stepWorker P w none = some s' from h.elim fun s' hs => moves_of_worker hs
    simp only [LockedPool.stepWorker, hwk, hphase, bind, Option.bind_some, hpool']
    exact ⟨_, rfl⟩

/-- **Nobody waits in vain** on a mutex, on a condition variable or on the channel: without
orphans somebody can go on as long as some call has not returned. -/
theorem LockedPool.Ok.moves (hok : s.Ok) (honce : HeldOnce s.pool) (hshaped : AllShaped s.pool)
    (hno : s.pool.NoOrphan) (hcall : s.pool.calls[c]? = some call) (hret : call.returned = false) :
    s.Moves P := by
  cases hphase : call.phase with
  | returned result => simp [Call.returned, hphase] at hret
  | sending =>
    cases hstep : s.pool.stepCall c with
    | some pool =>
      apply moves_of_call (c := c)
      simp only [LockedPool.stepCall, hcall, hphase, bind, Option.bind_some, hstep]
      rfl
    | none =>
      rcases stepCall_blocked hcall hret hstep with ⟨-, hconn, hfull, -⟩ | ⟨next, _, hwaiting, -⟩
      · obtain ⟨w, wk, hwk, hbusy⟩ := Pool.busy_of_full hconn hfull
        exact hok.worker_moves honce hshaped hwk hbusy
      · rw [hphase] at hwaiting
        cases hwaiting
  | waiting next firstError =>
    apply Moves.dropped hcall hphase
    intro hdropped
    by_cases hlt : next < call.done.length
    · have hok' := hok.cells.calls next hcall
      have hw := hok'.waits
      rw [hphase] at hw
      simp only [CallPhase.WaiterOk, Nat.not_succ_lt_self, if_false, Nat.succ_ne_self, if_true] at hw
      have henter : (s.cells (c, next)).waiter = .outside ∨ (s.cells (c, next)).waiter = .woken →
          s.Moves P := by
        intro hwaiter
        by_cases hlocked : (s.cells (c, next)).locked = true
        · exact hok.owner_moves hshaped hcall hlocked
        · suffices h : ∃ s', s.stepCall c = some s' from h.elim fun s' hs => moves_of_call hs
          simp only [LockedPool.stepCall, hcall, hphase, bind, Option.bind_some]
          rw [if_neg hdropped, if_pos hlt]
          have hcell := exists_onCell (s := s) (p := (c, next)) (a := .enter)
            (if_pos ⟨hwaiter, Bool.eq_false_iff.mpr hlocked⟩)
          rcases hwaiter with hwaiter | hwaiter <;> simp only [hwaiter] <;> exact hcell
      cases hwaiter : (s.cells (c, next)).waiter with
      | outside => exact henter (.inl hwaiter)
      | woken => exact henter (.inr hwaiter)
      | checking => exact Moves.checking hcall hphase hdropped hlt hwaiter
      | asleep =>
        rcases hok.cells.notifier hcall hwaiter with hempty | ⟨w, wk, t, hwk, -, hreleasing, -⟩
        · obtain ⟨w, wk, hwk, hbusy⟩ := hno.busy hshaped hcall hempty
          exact hok.worker_moves honce hshaped hwk hbusy
        · exact Moves.releasing hwk hreleasing
      | taken | done =>
        rw [hwaiter] at hw
        cases hw
    · have hpool : s.pool.stepCall c = some (s.pool.setCall c
          { call with phase := .returned (waitResult firstError call.results) }) := by
        simp only [Pool.stepCall, hcall, hphase, bind, Option.bind_some,
          List.getElem?_eq_none (not_lt.mp hlt)]
      suffices h : ∃ s', s.stepCall c = some s' from h.elim fun s' hs => moves_of_call hs
      simp only [LockedPool.stepCall, hcall, hphase, bind, Option.bind_some, hpool]
      rw [if_neg hdropped, if_neg hlt]
      exact ⟨_, rfl⟩

end Progress

/-! ## Quiet runs -/

def LockedAction.isThread : LockedAction F → Bool
  | .pool a => a.isThread
  | .wake _ => false

def LockedAction.isWake : LockedAction F → Bool
  | .pool _ => false
  | .wake _ => true

/-- The pool's part of the run is quiet; the callers may wake up whenever they sleep. -/
def LockedQuiet (P : PyWorld F M Fn Obj) (f : PureFunctions F) (s : LockedPool F M Fn) :
    LockedAction F → Prop
  | .pool a => Quiet P f s.pool a
  | .wake _ => True

section Quiet
variable {P : PyWorld F M Fn Obj} {f : PureFunctions F} {s s' : LockedPool F M Fn} {a : LockedAction F}

theorem HeldOnce.init (sysPath : List String) (starts : List Bool) :
    HeldOnce (Pool.init sysPath starts : Pool F M Fn) := by
  intro t
  have hacc : Accounted (Pool.init sysPath starts : Pool F M Fn) := .init sysPath starts
  have hzero : (Pool.init sysPath starts : Pool F M Fn).heldCount t = 0 := by
    by_contra hne
    obtain ⟨call, hcall, -⟩ := hacc.held t (Pool.heldCount_pos.mp (Nat.pos_of_ne_zero hne))
    cases hcall
  rw [hzero]
  exact ⟨Nat.zero_le 1, fun hpos => absurd hpos (Nat.lt_irrefl 0)⟩

/-- What holds of a pool with its mutexes in a quiet run. -/
structure LockedServing (P : PyWorld F M Fn Obj) (f : PureFunctions F) (s : LockedPool F M Fn) :
    Prop where
  ok : s.Ok
  serving : Serving P f s.pool
  once : HeldOnce s.pool
  shaped : AllShaped s.pool
  noOrphan : s.pool.NoOrphan

theorem LockedServing.init {n : ℕ} (hn : 0 < n) (sysPath : List String) :
    LockedServing P f (.init sysPath (List.replicate n true)) where
  ok := .init sysPath _
  serving := .init hn sysPath
  once := .init sysPath _
  shaped := fun c call hc => by cases hc
  noOrphan := Pool.noOrphan_init sysPath _

theorem LockedServing.step (hfl : P.fl.cmp .eq (minusOne P.fl .f64) (minusOne P.fl .f64) = true)
    (h : LockedServing P f s) (hquiet : LockedQuiet P f s a) (hs : P.lockedStep s a = some s') :
    LockedServing P f s' := by
  have hok := h.ok.step hs
  rcases h.ok.cells.refines hs with hsame | ⟨b, rfl, hb⟩
  · exact ⟨hok, hsame ▸ h.serving, hsame ▸ h.once, hsame ▸ h.shaped, hsame ▸ h.noOrphan⟩
  · have hcrash : b.isCrash = false := by
      cases b with
      | crash => exact hquiet.elim
      | execute | call | worker | shutdownWorkers | shutdown => rfl
    exact ⟨hok, h.serving.step hfl hquiet hb, h.once.step h.ok.accounted hb, h.shaped.step hb,
      h.noOrphan.step h.ok.accounted hb hcrash (sendSafe_of_room h.serving.room b)⟩

theorem threads_le_work {init : LockedPool F M Fn} {bs : List (LockedAction F)} (hok : init.Ok)
    (hshaped : AllShaped init.pool)
    (h : Run P.lockedStep (fun _ a => a.isThread = true ∨ a.isWake = true) init bs s) :
    bs.countP LockedAction.isThread + s.work ≤ init.work + 2 * bs.countP LockedAction.isWake := by
  refine (h.induction (I := fun bs s => (s.Ok ∧ AllShaped s.pool) ∧
    bs.countP LockedAction.isThread + s.work ≤ init.work + 2 * bs.countP LockedAction.isWake)
    ⟨⟨hok, hshaped⟩, by simp⟩ ?_).2
  rintro as s s' a - ⟨⟨hok, hshaped⟩, hle⟩ ha hs
  refine ⟨⟨hok.step hs, ?_⟩, ?_⟩
  · rcases hok.cells.refines hs with hsame | ⟨b, -, hb⟩
    · rw [hsame]
      exact hshaped
    · exact hshaped.step hb
  · cases a with
    | wake c =>
      have hthreads : (as ++ [LockedAction.wake c]).countP LockedAction.isThread = as.countP LockedAction.isThread := by
        simp [LockedAction.isThread]
      have hwakes : (as ++ [LockedAction.wake c]).countP LockedAction.isWake = as.countP LockedAction.isWake + 1 := by
        simp [LockedAction.isWake]
      have hwork := work_of_wake hok hshaped hs
      omega
    | pool a =>
      have hthread : a.isThread = true := ha.resolve_right nofun
      have hthreads : (as ++ [LockedAction.pool a]).countP LockedAction.isThread = as.countP LockedAction.isThread + 1 := by
        simp [LockedAction.isThread, hthread]
      have hwakes : (as ++ [LockedAction.pool a]).countP LockedAction.isWake = as.countP LockedAction.isWake := by
        simp [LockedAction.isWake]
      have hwork := work_lt_of_thread hok hshaped hthread hs
      omega

/-- **`execute` is the sequential map with its mutexes as well**: in every quiet run, with any
number of spurious wake-ups, what a call returns is the result of the sequential loop; the
threads take boundedly many steps but for two more after each wake-up; and they do not stop
before every call has returned. The mutexes, the condition variables and the channel are all
that a thread waits for here: the GIL, for which a worker's first import may wait while a caller
keeps it in front of a full channel, is left aside. -/
theorem locked_execute_eq_sequential
    (hfl : P.fl.cmp .eq (minusOne P.fl .f64) (minusOne P.fl .f64) = true) {n : ℕ} (hn : 0 < n)
    {sysPath : List String} {as : List (LockedAction F)}
    (hrun : Run P.lockedStep (LockedQuiet P f) (.init sysPath (List.replicate n true)) as s) :
    (∀ call ∈ s.pool.calls, ∀ r, call.phase = .returned r → r = call.sequential f) ∧
      (∀ bs s', Run P.lockedStep (fun _ a => a.isThread = true ∨ a.isWake = true) s bs s' →
        bs.countP LockedAction.isThread ≤ s.work + 2 * bs.countP LockedAction.isWake) ∧
      ((∀ a : LockedAction F, a.isThread = true → P.lockedStep s a = none) →
        ∀ call ∈ s.pool.calls, call.returned = true) := by
  have h : LockedServing P f s :=
    hrun.invariant (I := LockedServing P f) (.init hn sysPath) fun hI ha hs => hI.step hfl ha hs
  refine ⟨fun call hcall r hr => ?_, fun bs s' hbs => ?_, fun hstuck call hcall => ?_⟩
  · obtain ⟨c, hc⟩ := List.mem_iff_getElem?.mp hcall
    have hphase := (h.serving.calls c call hc).phase
    rwa [hr] at hphase
  · have hle := threads_le_work h.ok h.shaped hbs
    omega
  · obtain ⟨c, hc⟩ := List.mem_iff_getElem?.mp hcall
    by_contra hret
    obtain ⟨a, s', ha, hs⟩ := h.ok.moves (P := P) h.once h.shaped h.noOrphan hc
      (Bool.eq_false_iff.mpr hret)
    rw [hstuck (.pool a) ha] at hs
    cases hs

end Quiet

/-! ## A run -/

/-- `FindsNamed` of the pool's part of a run. -/
def LockedFindsNamed (s : LockedPool (BitVec 64) String Names) : LockedAction (BitVec 64) → Prop
  | .pool a => FindsNamed s.pool a
  | .wake _ => True

instance (s : LockedPool (BitVec 64) String Names) :
    (a : LockedAction (BitVec 64)) → Decidable (LockedFindsNamed s a)
  | .pool a => inferInstanceAs (Decidable (FindsNamed s.pool a))
  | .wake _ => .isTrue trivial

theorem LockedFindsNamed.quiet {s : LockedPool (BitVec 64) String Names} {a : LockedAction (BitVec 64)}
    (h : LockedFindsNamed s a) : LockedQuiet bitWorld demoFunctions s a := by
  cases a with
  | pool a => exact FindsNamed.quiet h
  | wake c => trivial

/-- `demoRun` with its mutexes; the caller is asleep at the first slot and wakes up too early. -/
def lockedDemoRun : List (LockedAction (BitVec 64)) :=
  ([.execute ("tasks", "inc") [] (.int64 [3, 4]) 4096, .call 0, .call 0, .call 0, .call 0, .call 0,
    .worker 0 none, .worker 1 none, .worker 0 none, .worker 1 none, .worker 1 none,
    .worker 1 none, .worker 1 none, .worker 1 none, .worker 1 none, .worker 1 none,
    .worker 1 none] : List (PoolAction (BitVec 64))).map .pool ++ [.wake 0] ++
  ([.call 0, .call 0, .worker 0 none, .worker 0 none, .worker 0 none, .worker 0 none,
    .worker 0 none, .worker 0 none, .worker 0 none, .call 0, .call 0, .call 0, .call 0, .call 0,
    .call 0, .call 0] : List (PoolAction (BitVec 64))).map .pool

theorem locked_execute_eq_sequential_demo : ∃ s : LockedPool (BitVec 64) String Names,
    Run bitWorld.lockedStep (LockedQuiet bitWorld demoFunctions) (.init [] (List.replicate 2 true))
      lockedDemoRun s ∧ (∃ call ∈ s.pool.calls, call.returned = true) ∧
      ∀ call ∈ s.pool.calls, ∀ r, call.phase = .returned r → r = call.sequential demoFunctions := by
  obtain ⟨s, hs, hret⟩ : ∃ s : LockedPool (BitVec 64) String Names,
      Run bitWorld.lockedStep LockedFindsNamed (.init [] (List.replicate 2 true)) lockedDemoRun s ∧
        ∃ call ∈ s.pool.calls, call.returned = true :=
    ⟨_, run_of_exec rfl, _, List.mem_singleton.mpr rfl, rfl⟩
  have hrun := hs.mono fun s a h => h.quiet
  exact ⟨s, hrun, hret, (locked_execute_eq_sequential (beq_self_eq_true _) (by decide) hrun).1⟩

end Gilmap
