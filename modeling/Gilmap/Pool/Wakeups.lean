import Gilmap.Pool.Locked

/-! # No wake-up is lost

In every run of the pool with its mutexes, a mutex has one owner at most, a caller that
sleeps on a filled slot is about to be notified, and what the threads do is what the pool
without mutexes does.
-/
namespace Gilmap
open Library
variable {F M Fn Obj : Type}

/-! ## What the cells hold -/

/-- Where the waiter of the slot `k` is when its call is here. -/
def CallPhase.WaiterOk {α : Type} (phase : CallPhase α) (k : ℕ) (w : Waiter) : Prop :=
  match phase with
  | .sending => w = .outside
  | .waiting next _ =>
    if k + 1 < next then w = .done
    else if k + 1 = next then w.hasTaken = true
    else if k = next then w.hasTaken = false
    else w = .outside
  | .returned _ => w = .outside ∨ w = .done

/-- The worker is at the steps of the storer. -/
def WorkerPhase.StoresAt (phase : WorkerPhase Fn) (p : ℕ × ℕ) : Storer → Prop
  | .holding => ∃ t r, phase = .finishing t r ∧ t.cell = p
  | .stored | .notified => ∃ t, phase = .releasing t ∧ t.cell = p
  | .outside | .done => True

/-- The cell of the slot `k` of a call. -/
structure CellOk (call : Call F) (k : ℕ) (cell : OneShot TaskResult) : Prop where
  shows : cell.Shows call.done[k]?.join
  waits : call.phase.WaiterOk k cell.waiter
  unsent : call.done.length ≤ k → cell.waiter = .outside

structure CellsOk (s : LockedPool F M Fn) : Prop where
  calls : ∀ {c : ℕ} {call} k, s.pool.calls[c]? = some call → CellOk call k (s.cells (c, k))
  fresh : ∀ {c : ℕ} k, s.pool.calls[c]? = none → s.cells (c, k) = .fresh
  stores : ∀ p, (s.cells p).storer.holds = true →
    ∃ (w : ℕ) (wk : Worker M Fn), s.pool.workers[w]? = some wk ∧ wk.phase.StoresAt p (s.cells p).storer
  released : ∀ {w : ℕ} {wk : Worker M Fn} {t}, s.pool.workers[w]? = some wk →
    wk.phase = .releasing t → (s.cells t.cell).storer.hasStored = true

section Cells
variable {P : PyWorld F M Fn Obj} {s s' : LockedPool F M Fn} {pool : Pool F M Fn} {call call' : Call F}
  {wk : Worker M Fn} {c k w next : ℕ} {fault : Option (ℕ × String)} {cell : OneShot TaskResult}
  {firstError : Option String}

theorem CallPhase.WaiterOk.notified {α : Type} {phase : CallPhase α} {v : Waiter}
    (h : phase.WaiterOk k v) : phase.WaiterOk k v.notified := by
  obtain ⟨-, htaken⟩ := OneShot.notified_same v
  cases phase with
  | sending =>
    cases h
    rfl
  | waiting next firstError =>
    unfold CallPhase.WaiterOk at h ⊢
    dsimp only at h ⊢
    rw [htaken]
    split_ifs at h ⊢
    · rw [h]
      rfl
    · exact h
    · exact h
    · rw [h]
      rfl
  | returned result =>
    rcases h with rfl | rfl
    · exact .inl rfl
    · exact .inr rfl

/-- A worker at a cell does not move the caller. -/
theorem CellOk.step {a : OneShotAction TaskResult} {cell' : OneShot TaskResult} (h : CellOk call k cell)
    (hs : cell.step a = some cell') (ha : a.isStorer = true) (hafter : ∀ d, a.after d = d) :
    CellOk call k cell' := by
  have hshows := h.shows.step hs
  rw [hafter] at hshows
  rcases OneShot.waiter_of_step hs ha with hw | hw
  · exact ⟨hshows, hw ▸ h.waits, fun hk => hw ▸ h.unsent hk⟩
  · refine ⟨hshows, hw ▸ h.waits.notified, fun hk => ?_⟩
    rw [hw, h.unsent hk]
    rfl

theorem CellsOk.init (sysPath : List String) (starts : List Bool) :
    CellsOk (.init sysPath starts : LockedPool F M Fn) where
  calls k hcall := by cases hcall
  fresh k _ := rfl
  stores p hp := by cases hp
  released hwk hphase := by
    obtain ⟨ok, -, rfl⟩ := List.mem_map.mp (List.mem_of_getElem? hwk)
    cases hphase

/-- The pool takes a step without the cells. -/
theorem CellsOk.onPool (h : CellsOk s)
    (hcalls : ∀ (c : ℕ) call', pool.calls[c]? = some call' →
      (s.pool.calls[c]? = none ∧ call'.done = [] ∧ call'.phase = .sending) ∨
      ∃ call, s.pool.calls[c]? = some call ∧
        ∀ k, CellOk call k (s.cells (c, k)) → CellOk call' k (s.cells (c, k)))
    (hnone : ∀ c : ℕ, pool.calls[c]? = none → s.pool.calls[c]? = none)
    (hkept : ∀ (w : ℕ) wk, s.pool.workers[w]? = some wk → ∀ p, (s.cells p).storer.holds = true →
      wk.phase.StoresAt p (s.cells p).storer → pool.workers[w]? = some wk)
    (hreleased : ∀ (w : ℕ) wk' t, pool.workers[w]? = some wk' → wk'.phase = .releasing t →
      s.pool.workers[w]? = some wk') : CellsOk { s with pool := pool } where
  calls {c call'} k hcall := by
    rcases hcalls c call' hcall with ⟨hnew, hdone, hphase⟩ | ⟨call, hold, hkeep⟩
    · change CellOk call' k (s.cells (c, k))
      rw [h.fresh k hnew]
      refine ⟨?_, ?_, fun _ => rfl⟩
      · rw [hdone]
        exact OneShot.shows_fresh
      · rw [hphase]
        rfl
    · exact hkeep k (h.calls k hold)
  fresh k hc := h.fresh k (hnone _ hc)
  stores p hp := by
    obtain ⟨w, wk, hwk, hat⟩ := h.stores p hp
    exact ⟨w, wk, hkept w wk hwk p hp hat, hat⟩
  released hwk hphase := h.released (hreleased _ _ _ hwk hphase) hphase

/-- A call alone takes a step. -/
theorem CellsOk.setCall (h : CellsOk s) (hcall : s.pool.calls[c]? = some call)
    (hcalls : pool.calls = s.pool.calls.set c call') (hworkers : pool.workers = s.pool.workers)
    (hnew : ∀ k, CellOk call k (s.cells (c, k)) → CellOk call' k (s.cells (c, k))) :
    CellsOk { s with pool := pool } := by
  refine h.onPool (fun c' call₁ hc => ?_) (fun c' hc => ?_) (fun w wk hwk _ _ _ => hworkers ▸ hwk)
    fun w wk t hwk _ => hworkers ▸ hwk
  · rw [hcalls, getElem?_set_some hcall] at hc
    split at hc
    · rename_i he
      subst he
      cases hc
      exact .inr ⟨call, hcall, hnew⟩
    · exact .inr ⟨call₁, hc, fun _ hk => hk⟩
  · rw [hcalls, getElem?_set_some hcall] at hc
    split at hc
    · cases hc
    · exact hc

/-- A slot that is waited for has been left behind once its guard is dropped. -/
theorem done_of_dropped (hdropped : s.Dropped c (k + 1))
    (htaken : (s.cells (c, k)).waiter.hasTaken = true) : (s.cells (c, k)).waiter = .done := by
  have hne : (s.cells (c, k)).waiter ≠ .taken := fun he => hdropped ⟨Nat.succ_pos k, he⟩
  cases hv : (s.cells (c, k)).waiter with
  | taken => exact absurd hv hne
  | done => rfl
  | outside | checking | asleep | woken =>
    rw [hv] at htaken
    cases htaken

/-- A call's step past the mutexes. -/
theorem CellsOk.plainCall (h : CellsOk s) (hcall : s.pool.calls[c]? = some call)
    (hplain : ∀ next firstError, call.phase = .waiting next firstError →
      s.Dropped c next ∧ call.done.length ≤ next)
    (hs : s.pool.stepCall c = some pool) : CellsOk { s with pool := pool } := by
  obtain ⟨call₁, hcall₁, hstep⟩ := stepCall_cases hs
  rw [hcall] at hcall₁
  cases hcall₁
  have hpast : ∀ {next firstError} {r : TaskResult}, call.phase = .waiting next firstError →
      call.done[next]? = some (some r) → CellsOk { s with pool := pool } := by
    intro next firstError r hphase hslot
    have hlt := (List.getElem?_eq_some_iff.mp hslot).1
    have hge := (hplain next firstError hphase).2
    omega
  cases hstep with
  | allSent hphase =>
    refine h.setCall hcall rfl rfl fun k hk => ⟨hk.shows, ?_, hk.unsent⟩
    have hw := hk.waits
    rw [hphase] at hw
    obtain rfl | hpos := Nat.eq_zero_or_pos k
    · simp [CallPhase.WaiterOk, show (s.cells (c, 0)).waiter = .outside from hw, Waiter.hasTaken]
    · simp [CallPhase.WaiterOk, hpos.ne', show (s.cells (c, k)).waiter = .outside from hw]
  | sendFailed hphase =>
    refine h.setCall hcall rfl rfl fun k hk => ⟨hk.shows, ?_, hk.unsent⟩
    have hw := hk.waits
    rw [hphase] at hw
    exact .inl hw
  | send hphase =>
    refine h.setCall hcall rfl rfl fun k hk => ⟨?_, hk.waits, fun hlen => hk.unsent ?_⟩
    · have hslots : (call.done ++ [none])[k]?.join = call.done[k]?.join := by
        rw [List.getElem?_append]
        split
        · rfl
        · rename_i hge
          rw [List.getElem?_eq_none (not_lt.mp hge)]
          cases k - call.done.length <;> rfl
      rw [hslots]
      exact hk.shows
    · rw [List.length_append] at hlen
      omega
  | @finish next firstError hphase =>
    obtain ⟨hdropped, hge⟩ := hplain next firstError hphase
    refine h.setCall hcall rfl rfl fun k hk => ⟨hk.shows, ?_, hk.unsent⟩
    have hw := hk.waits
    rw [hphase] at hw
    unfold CallPhase.WaiterOk at hw ⊢
    dsimp only at hw ⊢
    split_ifs at hw with hlast hprev hnext
    · exact .inr hw
    · subst hprev
      exact .inr (done_of_dropped hdropped hw)
    · exact .inl (hk.unsent (hnext ▸ hge))
    · exact .inl hw
  | waitOk hphase hslot => exact hpast hphase hslot
  | waitErr hphase hslot => exact hpast hphase hslot

theorem not_storesAt {p : ℕ × ℕ} (hbusy : ∀ t r, wk.phase = .finishing t r →
      (s.cells t.cell).storer = .outside)
    (htold : ∀ t, wk.phase = .releasing t → (s.cells t.cell).storer ≠ .stored ∧
      (s.cells t.cell).storer ≠ .notified)
    (hp : (s.cells p).storer.holds = true) : ¬ wk.phase.StoresAt p (s.cells p).storer := by
  intro hat
  cases hst : (s.cells p).storer with
  | outside | done =>
    rw [hst] at hp
    cases hp
  | holding =>
    rw [hst] at hat
    obtain ⟨t, r, hphase, rfl⟩ := hat
    exact nomatch (hbusy t r hphase).symm.trans hst
  | stored =>
    rw [hst] at hat
    obtain ⟨t, hphase, rfl⟩ := hat
    exact (htold t hphase).1 hst
  | notified =>
    rw [hst] at hat
    obtain ⟨t, hphase, rfl⟩ := hat
    exact (htold t hphase).2 hst

/-- A worker that has not filled a slot has none to release. -/
theorem WorkerStep.not_releasing {q q' : Pool F M Fn} {wk' : Worker M Fn} {t : Task}
    (h : WorkerStep P q w fault wk q') (hwk : q.workers[w]? = some wk)
    (hplain : ∀ t r, wk.phase ≠ .finishing t r) (hwk' : q'.workers[w]? = some wk') :
    wk'.phase ≠ .releasing t := by
  cases h with
  | finish hphase => exact absurd hphase (hplain _ _)
  | startFailed | exit =>
    rw [Pool.exit_workers] at hwk'
    cases getElem?_set_self_some hwk hwk'
    exact nofun
  | started | recvShutdown | recvTask | resolved | resolveFailed | element | elementFailed
  | elementsDone | release =>
    cases getElem?_set_self_some hwk hwk'
    exact nofun

/-- A worker touches a slot when it fills it only. -/
theorem WorkerStep.calls_of_plain {q q' : Pool F M Fn} (h : WorkerStep P q w fault wk q')
    (hplain : ∀ t r, wk.phase ≠ .finishing t r) : q'.calls = q.calls ∨
      ∃ c call results, q.calls[c]? = some call ∧
        q'.calls = q.calls.set c { call with results := results } := by
  cases h with
  | finish hphase => exact absurd hphase (hplain _ _)
  | element _ hcall => exact .inr ⟨_, _, _, hcall, rfl⟩
  | startFailed | exit => exact .inl Pool.exit_calls
  | started | recvShutdown | recvTask | resolved | resolveFailed | elementFailed | elementsDone
  | release => exact .inl rfl

/-- A worker's step past the mutexes. -/
theorem CellsOk.plainWorker (h : CellsOk s) (hwk : s.pool.workers[w]? = some wk)
    (hplain : ∀ t r, wk.phase ≠ .finishing t r)
    (htold : ∀ t, wk.phase = .releasing t → (s.cells t.cell).storer ≠ .stored ∧
      (s.cells t.cell).storer ≠ .notified)
    (hs : s.pool.stepWorker P w fault = some pool) : CellsOk { s with pool := pool } := by
  obtain ⟨wk₁, hwk₁, hstep⟩ := stepWorker_cases hs
  rw [hwk] at hwk₁
  cases hwk₁
  have hset : ∀ {c call results}, s.pool.calls[c]? = some call →
      pool.calls = s.pool.calls.set c { call with results := results } → ∀ c' : ℕ,
      (pool.calls[c']? = none → s.pool.calls[c']? = none) ∧
      ∀ call', pool.calls[c']? = some call' → ∃ call₁, s.pool.calls[c']? = some call₁ ∧
        ∀ k, CellOk call₁ k (s.cells (c', k)) → CellOk call' k (s.cells (c', k)) := by
    intro c call results hcall hcalls c'
    rw [hcalls, getElem?_set_some hcall]
    split
    · rename_i he
      subst he
      refine ⟨nofun, fun call' hc' => ?_⟩
      cases hc'
      exact ⟨call, hcall, fun k hk => ⟨hk.shows, hk.waits, hk.unsent⟩⟩
    · exact ⟨id, fun call' hc' => ⟨call', hc', fun _ hk => hk⟩⟩
  have hcalls : ∀ c' : ℕ, (pool.calls[c']? = none → s.pool.calls[c']? = none) ∧
      ∀ call', pool.calls[c']? = some call' → ∃ call₁, s.pool.calls[c']? = some call₁ ∧
        ∀ k, CellOk call₁ k (s.cells (c', k)) → CellOk call' k (s.cells (c', k)) := by
    rcases hstep.calls_of_plain hplain with hsame | ⟨c, call, results, hcall, hnew⟩
    · intro c'
      rw [hsame]
      exact ⟨id, fun call' hc' => ⟨call', hc', fun _ hk => hk⟩⟩
    · exact hset hcall hnew
  refine h.onPool (fun c' call' hc' => .inr ((hcalls c').2 call' hc')) (fun c' => (hcalls c').1)
    (fun w' wk' hw' p hp hat => ?_) fun w' wk' t hw' hphase => ?_
  · by_cases he : w = w'
    · subst he
      rw [hwk] at hw'
      cases hw'
      exact absurd hat (not_storesAt (fun t r hf => absurd hf (hplain t r)) htold hp)
    · rw [hstep.others he]
      exact hw'
  · by_cases he : w = w'
    · subst he
      exact absurd hphase (hstep.not_releasing hwk hplain hw')
    · rwa [hstep.others he] at hw'

theorem CellsOk.plainCrash (h : CellsOk s) (hwk : s.pool.workers[w]? = some wk)
    (hfree : ∀ t r, wk.phase = .finishing t r → (s.cells t.cell).storer = .outside)
    (hs : s.pool.crash w = some pool) : CellsOk { s with pool := pool } := by
  have hphase : ∀ t, wk.phase ≠ .releasing t := by
    intro t ht
    simp [Pool.crash, hwk, ht] at hs
  obtain ⟨wk₁, hwk₁, rfl⟩ := crash_cases hs
  rw [hwk] at hwk₁
  cases hwk₁
  refine h.onPool (fun c' call' hc' => .inr ⟨call', ?_, fun _ hk => hk⟩) (fun c' hc' => ?_)
    (fun w' wk' hw' p hp hat => ?_) fun w' wk' t hw' ht => ?_
  · rwa [Pool.exit_calls] at hc'
  · rwa [Pool.exit_calls] at hc'
  · by_cases he : w = w'
    · subst he
      rw [hwk] at hw'
      cases hw'
      exact absurd hat (not_storesAt hfree (fun t ht => absurd ht (hphase t)) hp)
    · rw [Pool.exit_workers, List.getElem?_set_ne he]
      exact hw'
  · rw [Pool.exit_workers] at hw'
    rcases getElem?_set_cases hw' with hold | rfl
    · exact hold
    · cases ht

/-- A step that adds a call at most. -/
theorem CellsOk.addCall (h : CellsOk s) (hworkers : pool.workers = s.pool.workers)
    (hcalls : pool.calls = s.pool.calls ∨ ∃ call', pool.calls = s.pool.calls ++ [call'] ∧
      call'.done = [] ∧ call'.phase = .sending) : CellsOk { s with pool := pool } := by
  refine h.onPool (fun c' call₁ hc' => ?_) (fun c' hc' => ?_) (fun w wk hwk _ _ _ => hworkers ▸ hwk)
    fun w wk t hwk _ => hworkers ▸ hwk
  · rcases hcalls with hsame | ⟨call', hnew, hdone, hphase⟩
    · exact .inr ⟨call₁, hsame ▸ hc', fun _ hk => hk⟩
    · rw [hnew, List.getElem?_append] at hc'
      split at hc'
      · exact .inr ⟨call₁, hc', fun _ hk => hk⟩
      · rename_i hge
        obtain rfl := List.mem_singleton.mp (List.mem_of_getElem? hc')
        exact .inl ⟨List.getElem?_eq_none (not_lt.mp hge), hdone, hphase⟩
  · rcases hcalls with hsame | ⟨call', hnew, -⟩
    · exact hsame ▸ hc'
    · rw [hnew, List.getElem?_eq_none_iff, List.length_append] at hc'
      exact List.getElem?_eq_none (by omega)

/-- A cell takes a step together with its call and a worker of the pool. -/
theorem CellsOk.move {p : ℕ × ℕ} {a : OneShotAction TaskResult} (h : CellsOk s)
    (hs : (s.cells p).step a = some cell) (hcall : s.pool.calls[p.1]? = some call)
    (hcalls : ∀ c : ℕ, pool.calls[c]? = if p.1 = c then some call' else s.pool.calls[c]?)
    (hown : CellOk call' p.2 cell)
    (hrest : ∀ k, k ≠ p.2 → CellOk call k (s.cells (p.1, k)) → CellOk call' k (s.cells (p.1, k)))
    (hstores : cell.storer.holds = true →
      ∃ (w : ℕ) (wk : Worker M Fn), pool.workers[w]? = some wk ∧ wk.phase.StoresAt p cell.storer)
    (hkept : ∀ (w : ℕ) wk p', s.pool.workers[w]? = some wk → p' ≠ p → (s.cells p').storer.holds = true →
      wk.phase.StoresAt p' (s.cells p').storer → pool.workers[w]? = some wk)
    (hreleased : ∀ (w : ℕ) wk t, pool.workers[w]? = some wk → wk.phase = .releasing t →
      s.pool.workers[w]? = some wk ∨ t.cell = p ∧ cell.storer.hasStored = true) :
    CellsOk { s.setCell p cell with pool := pool } := by
  have hself : (s.setCell p cell).cells p = cell := Function.update_self ..
  have hother : ∀ q, q ≠ p → (s.setCell p cell).cells q = s.cells q :=
    fun q hq => Function.update_of_ne hq _ _
  refine ⟨fun {c₁ call₁} k hc => ?_, fun {c₁} k hc => ?_, fun q hq => ?_, fun {w wk t} hwk ht => ?_⟩
  · change CellOk call₁ k ((s.setCell p cell).cells (c₁, k))
    rw [show pool.calls[c₁]? = _ from hcalls c₁] at hc
    split at hc
    · rename_i he
      subst he
      cases hc
      by_cases hk : k = p.2
      · subst hk
        rw [hself]
        exact hown
      · rw [hother _ fun he => hk (congrArg Prod.snd he)]
        exact hrest k hk (h.calls k hcall)
    · rename_i hne
      rw [hother _ fun he => hne (congrArg Prod.fst he).symm]
      exact h.calls k hc
  · change (s.setCell p cell).cells (c₁, k) = .fresh
    rw [show pool.calls[c₁]? = _ from hcalls c₁] at hc
    split at hc
    · cases hc
    · rename_i hne
      rw [hother _ fun he => hne (congrArg Prod.fst he).symm]
      exact h.fresh k hc
  · change ((s.setCell p cell).cells q).storer.holds = true at hq
    change ∃ (w : ℕ) (wk : Worker M Fn), pool.workers[w]? = some wk ∧
      wk.phase.StoresAt q ((s.setCell p cell).cells q).storer
    by_cases he : q = p
    · subst he
      rw [hself] at hq ⊢
      exact hstores hq
    · rw [hother q he] at hq ⊢
      obtain ⟨w, wk, hwk, hat⟩ := h.stores q hq
      exact ⟨w, wk, hkept w wk q hwk he hq hat, hat⟩
  · change ((s.setCell p cell).cells t.cell).storer.hasStored = true
    rcases hreleased w wk t hwk ht with hold | ⟨rfl, hstored⟩
    · have hbefore := h.released hold ht
      by_cases he : t.cell = p
      · subst he
        rw [hself]
        exact OneShot.hasStored_of_step hs hbefore
      · rw [hother _ he]
        exact hbefore
    · rw [hself]
      exact hstored

/-- A cell takes a step and the pool does not. -/
theorem CellsOk.setCell {p : ℕ × ℕ} {a : OneShotAction TaskResult} (h : CellsOk s)
    (hs : (s.cells p).step a = some cell) (hcall : s.pool.calls[p.1]? = some call)
    (hok : CellOk call p.2 cell) (hstores : cell.storer.holds = true → ∃ (w : ℕ) (wk : Worker M Fn),
      s.pool.workers[w]? = some wk ∧ wk.phase.StoresAt p cell.storer) : CellsOk (s.setCell p cell) := by
  suffices CellsOk { s.setCell p cell with pool := s.pool } from this
  refine h.move hs hcall (fun c => ?_) hok (fun _ _ hk => hk) hstores
    (fun w wk _ hwk _ _ _ => hwk) fun w wk t hwk _ => .inl hwk
  split
  · rename_i he
    rw [← he, hcall]
  · rfl

/-- The caller alone takes a step at a cell. -/
theorem CellsOk.waiterStep {a : OneShotAction TaskResult} (h : CellsOk s)
    (hcall : s.pool.calls[c]? = some call) (hs : (s.cells (c, k)).step a = some cell)
    (ha : a.isStorer = false) (hwaits : call.phase.WaiterOk k cell.waiter)
    (hsent : (s.cells (c, k)).waiter ≠ .outside ∨ k < call.done.length) :
    CellsOk (s.setCell (c, k) cell) := by
  have hold := h.calls k hcall
  have hafter : a.after call.done[k]?.join = call.done[k]?.join := by
    cases a <;> first | rfl | cases ha
  refine h.setCell hs hcall ⟨hafter ▸ hold.shows.step hs, hwaits, fun hge => ?_⟩ fun hp => ?_
  · rcases hsent with hne | hlt
    · exact absurd (hold.unsent hge) hne
    · exact absurd hge (not_le.mpr hlt)
  · have hsame := OneShot.storer_of_step hs ha
    rw [hsame] at hp ⊢
    exact h.stores (c, k) hp

/-- A worker alone takes a step at the cell of its task. -/
theorem CellsOk.storerStep {a : OneShotAction TaskResult} {t : Task} (h : CellsOk s)
    (hwk : s.pool.workers[w]? = some wk) (hcall : s.pool.calls[t.call]? = some call)
    (hs : (s.cells t.cell).step a = some cell) (ha : a.isStorer = true) (hafter : ∀ d, a.after d = d)
    (hat : wk.phase.StoresAt t.cell cell.storer) : CellsOk (s.setCell t.cell cell) :=
  h.setCell hs hcall ((h.calls t.slot hcall).step hs ha hafter) fun _ => ⟨w, wk, hwk, hat⟩

/-- The caller takes a result out of a cell and goes on to the next slot. -/
theorem CellsOk.takeStep {result : TaskResult} (h : CellsOk s) (hcall : s.pool.calls[c]? = some call)
    (hphase : call.phase = .waiting next firstError) (hdropped : s.Dropped c next)
    (hlt : next < call.done.length) (hs : (s.cells (c, next)).step .take = some cell) :
    CellsOk { s.setCell (c, next) cell with
      pool := s.pool.setCall c
        { call with phase := .waiting (next + 1) (noteResult firstError result) } } := by
  have htaken : cell.waiter = .taken := by
    cases OneShot.step_cases hs with
    | take => rfl
  have hstorer := OneShot.storer_of_step hs rfl
  refine h.move hs hcall (fun c' => getElem?_set_some hcall)
    ⟨(h.calls next hcall).shows.step hs, ?_, fun hge => absurd hge (not_le.mpr hlt)⟩
    (fun k hk hok => ⟨hok.shows, ?_, hok.unsent⟩) (fun hp => ?_) (fun _ _ _ hwk _ _ _ => hwk)
    fun _ _ _ hwk _ => .inl hwk
  · simp [CallPhase.WaiterOk, htaken, Waiter.hasTaken]
  · have hw := hok.waits
    rw [hphase] at hw
    dsimp only [CallPhase.WaiterOk] at hk hw ⊢
    rcases Nat.lt_trichotomy (k + 1) next with hbefore | rfl | hafter
    · rw [if_pos (by omega)]
      rwa [if_pos hbefore] at hw
    · rw [if_neg (lt_irrefl _), if_pos rfl] at hw
      rw [if_pos (Nat.lt_succ_self _)]
      exact done_of_dropped hdropped hw
    · rw [if_neg (by omega), if_neg (by omega), if_neg hk] at hw
      rw [if_neg (by omega), if_neg (by omega), hw]
      split <;> rfl
  · rw [hstorer] at hp ⊢
    exact h.stores _ hp

/-- A worker stores a result in the cell of its task. -/
theorem CellsOk.storeStep {t : Task} {r : TaskResult} (h : CellsOk s)
    (hwk : s.pool.workers[w]? = some wk) (hphase : wk.phase = .finishing t r)
    (hcall : s.pool.calls[t.call]? = some call) (hslot : t.slot < call.done.length)
    (hs : (s.cells t.cell).step (.store r) = some cell) (hpool : s.pool.stepWorker P w fault = some pool) :
    CellsOk { s.setCell t.cell cell with pool := pool } := by
  obtain ⟨wk₁, hwk₁, hstep⟩ := stepWorker_cases hpool
  rw [hwk] at hwk₁
  cases hwk₁
  have hstored : cell.storer = .stored := by
    cases OneShot.step_cases hs with
    | store => rfl
  have hold := h.calls t.slot hcall
  cases hstep with
  | startFailed hp | exit hp | started hp | recvShutdown hp | recvTask hp | resolved hp
  | resolveFailed hp | element hp | elementFailed hp | elementsDone hp | release hp =>
    rw [hphase] at hp
    cases hp
  | @finish t₁ r₁ call₁ hp hc =>
    rw [hphase] at hp
    cases hp
    rw [hcall] at hc
    cases hc
    have hself : (s.pool.workers.set w { wk with phase := .releasing t })[w]? =
        some { wk with phase := .releasing t } := (getElem?_set_some hwk).trans (if_pos rfl)
    refine h.move hs hcall (fun c' => getElem?_set_some hcall) ⟨?_, ?_, fun hge => ?_⟩
      (fun k hk hok => ⟨?_, hok.waits, fun hge => hok.unsent (by simpa using hge)⟩)
      (fun _ => ⟨w, _, hself, ?_⟩) (fun w' wk' q hwk' hne hq hat => ?_) fun w' wk' t' hwk' ht' => ?_
    · have hnew : (call.done.set t.slot (some r))[t.slot]? = some (some r) :=
        List.getElem?_set_self hslot
      change cell.Shows ((call.done.set t.slot (some r))[t.slot]?).join
      rw [hnew]
      exact hold.shows.step hs
    · rcases OneShot.waiter_of_step hs rfl with hw | hw
      · exact hw ▸ hold.waits
      · exact hw ▸ hold.waits.notified
    · rw [List.length_set] at hge
      exact absurd hge (not_le.mpr hslot)
    · change OneShot.Shows _ ((call.done.set t.slot (some r))[k]?).join
      rw [List.getElem?_set_ne (show t.slot ≠ k from Ne.symm hk)]
      exact hok.shows
    · rw [hstored]
      exact ⟨t, rfl, rfl⟩
    · by_cases he : w = w'
      · subst he
        rw [hwk] at hwk'
        cases hwk'
        cases hst : (s.cells q).storer with
        | outside | done =>
          rw [hst] at hq
          cases hq
        | holding =>
          rw [hst] at hat
          obtain ⟨t', r', hp', rfl⟩ := hat
          rw [hphase] at hp'
          cases hp'
          exact absurd rfl hne
        | stored | notified =>
          rw [hst] at hat
          obtain ⟨t', hp', -⟩ := hat
          rw [hphase] at hp'
          cases hp'
      · exact (List.getElem?_set_ne he).trans hwk'
    · rcases getElem?_set_cases hwk' with hbefore | rfl
      · exact .inl hbefore
      · cases ht'
        exact .inr ⟨rfl, by rw [hstored]; rfl⟩

/-! ## Steps -/

/-- The task of a worker that is about to fill a slot belongs to a call. -/
theorem Accounted.taskAt {q : Pool F M Fn} {t : Task} {r : TaskResult} (hacc : Accounted q)
    (hwk : q.workers[w]? = some wk) (hphase : wk.phase = .finishing t r) :
    ∃ call, TaskAt q.calls t call :=
  hacc.held t (.inr ⟨wk, List.mem_of_getElem? hwk, by rw [hphase]; rfl⟩)

theorem CellsOk.stepCall (h : CellsOk s) (hs : s.stepCall c = some s') : CellsOk s' := by
  obtain ⟨call, hcall, hstep⟩ := lockedCall_cases hs
  cases hstep with
  | plain hplain hpool => exact h.plainCall hcall hplain hpool
  | @leave next firstError cell hphase hcell =>
    have hw := OneShot.step_cases hcell
    cases hw with
    | leave htaken =>
      refine h.waiterStep hcall hcell rfl ?_ (.inl (by rw [htaken]; exact nofun))
      rw [hphase]
      simp [CallPhase.WaiterOk, Waiter.hasTaken]
  | @look next firstError a cell hphase hdropped hlt ha hcell =>
    have hkept : cell.waiter.hasTaken = false ∧ a.isStorer = false := by
      rcases ha with rfl | rfl <;> cases OneShot.step_cases hcell <;> exact ⟨rfl, rfl⟩
    refine h.waiterStep hcall hcell hkept.2 ?_ (.inr hlt)
    rw [hphase]
    simp [CallPhase.WaiterOk, hkept.1]
  | take hphase hdropped hlt hwaiter hvalue hcell => exact h.takeStep hcall hphase hdropped hlt hcell

theorem CellsOk.stepWorker (h : CellsOk s) (hacc : Accounted s.pool)
    (hs : s.stepWorker P w fault = some s') : CellsOk s' := by
  obtain ⟨wk, hwk, hstep⟩ := lockedWorker_cases hs
  cases hstep with
  | plain hplain htold hpool => exact h.plainWorker hwk hplain htold hpool
  | @lock t r cell hphase hcell =>
    obtain ⟨call, hat⟩ := hacc.taskAt hwk hphase
    refine h.storerStep hwk hat.1 hcell rfl (fun _ => rfl) ?_
    cases OneShot.step_cases hcell with
    | lock => exact ⟨t, r, hphase, rfl⟩
  | store hphase hcell hpool =>
    obtain ⟨call, hat⟩ := hacc.taskAt hwk hphase
    exact h.storeStep hwk hphase hat.1 hat.2.2 hcell hpool
  | @tell t a cell hphase ha hcell =>
    -- a cell that has been stored to is not fresh
    obtain ⟨call, hcall⟩ : ∃ call, s.pool.calls[t.call]? = some call := by
      by_contra hnone
      have hfresh := h.fresh (c := t.call) t.slot (by
        cases hc : s.pool.calls[t.call]? with
        | none => rfl
        | some call => exact absurd ⟨call, hc⟩ hnone)
      have hstored := h.released hwk hphase
      rw [show s.cells t.cell = .fresh from hfresh] at hstored
      cases hstored
    rcases ha with rfl | rfl
    · refine h.storerStep hwk hcall hcell rfl (fun _ => rfl) ?_
      cases OneShot.step_cases hcell with
      | notify => exact ⟨t, hphase, rfl⟩
    · refine h.storerStep hwk hcall hcell rfl (fun _ => rfl) ?_
      cases OneShot.step_cases hcell with
      | unlock => trivial

theorem CellsOk.wake (h : CellsOk s) (hs : s.wake c = some s') : CellsOk s' := by
  obtain ⟨call, next, firstError, cell, hcall, hphase, hcell, rfl⟩ := wake_cases hs
  cases OneShot.step_cases hcell with
  | wake hasleep =>
    refine h.waiterStep hcall hcell rfl ?_ (.inl (by rw [hasleep]; exact nofun))
    rw [hphase]
    simp [CallPhase.WaiterOk, Waiter.hasTaken]

theorem CellsOk.step {a : LockedAction F} (h : CellsOk s) (hacc : Accounted s.pool)
    (hs : P.lockedStep s a = some s') : CellsOk s' := by
  cases a with
  | wake c => exact h.wake hs
  | pool a =>
    cases a with
    | call c => exact h.stepCall hs
    | worker w fault => exact h.stepWorker hacc hs
    | crash w =>
      obtain ⟨wk, pool, hwk, hfree, hpool, rfl⟩ := lockedCrash_cases hs
      exact h.plainCrash hwk hfree hpool
    | execute names sysPath array addr =>
      obtain ⟨pool, hpool, rfl⟩ := LockedPool.onPool_eq_some hs
      obtain ⟨-, rfl | ⟨d, zero, input, rfl⟩⟩ := begin_cases hpool
      · exact h.addCall rfl (.inl rfl)
      · exact h.addCall rfl (.inr ⟨_, rfl, rfl, rfl⟩)
    | shutdownWorkers =>
      obtain ⟨pool, hpool, rfl⟩ := LockedPool.onPool_eq_some hs
      cases hpool
      exact h.addCall rfl (.inl rfl)
    | shutdown k =>
      obtain ⟨pool, hpool, rfl⟩ := LockedPool.onPool_eq_some hs
      cases stepShutdown_cases hpool <;> exact h.addCall rfl (.inl rfl)

/-- The pool sees a step of a thread as its own step, or not at all. -/
theorem CellsOk.refines {a : LockedAction F} (h : CellsOk s) (hs : P.lockedStep s a = some s') :
    s'.pool = s.pool ∨ ∃ b, a = .pool b ∧ P.step s.pool b = some s'.pool := by
  cases a with
  | wake c =>
    obtain ⟨_, _, _, _, _, _, _, rfl⟩ := wake_cases hs
    exact .inl rfl
  | pool a =>
    cases a with
    | call c =>
      obtain ⟨call, hcall, hstep⟩ := lockedCall_cases hs
      cases hstep with
      | plain _ hpool => exact .inr ⟨_, rfl, hpool⟩
      | leave | look => exact .inl rfl
      | @take next firstError result cell hphase hdropped hlt hwaiter hvalue hcell =>
        refine .inr ⟨_, rfl, ?_⟩
        -- what the caller finds in the cell is what the slot holds
        have hslot : call.done[next]? = some (some result) := by
          have hd := (h.calls next hcall).shows.value_eq hwaiter
          rw [hvalue] at hd
          exact Option.join_eq_some_iff.mp hd.symm
        simp only [PyWorld.step, Pool.stepCall, hcall, bind, Option.bind_some, hphase, hslot]
        cases result <;> rfl
    | worker w fault =>
      obtain ⟨wk, hwk, hstep⟩ := lockedWorker_cases hs
      cases hstep with
      | plain _ _ hpool => exact .inr ⟨_, rfl, hpool⟩
      | store _ _ hpool => exact .inr ⟨_, rfl, hpool⟩
      | lock | tell => exact .inl rfl
    | crash w =>
      obtain ⟨wk, pool, hwk, hfree, hpool, rfl⟩ := lockedCrash_cases hs
      exact .inr ⟨_, rfl, hpool⟩
    | execute | shutdownWorkers | shutdown =>
      obtain ⟨pool, hpool, rfl⟩ := LockedPool.onPool_eq_some hs
      exact .inr ⟨_, rfl, hpool⟩

end Cells

/-! ## Runs -/

section Runs
variable {P : PyWorld F M Fn Obj} {s s' : LockedPool F M Fn} {sysPath : List String} {starts : List Bool}
  {a : LockedAction F} {c next : ℕ} {call : Call F} {firstError : Option String}

/-- What holds of the pool and its cells. -/
structure LockedPool.Ok (s : LockedPool F M Fn) : Prop where
  cells : CellsOk s
  accounted : Accounted s.pool

theorem LockedPool.Ok.init (sysPath : List String) (starts : List Bool) :
    (LockedPool.init sysPath starts : LockedPool F M Fn).Ok :=
  ⟨.init sysPath starts, .init sysPath starts⟩

theorem LockedPool.Ok.step (h : s.Ok) (hs : P.lockedStep s a = some s') : s'.Ok := by
  refine ⟨h.cells.step h.accounted hs, ?_⟩
  rcases h.cells.refines hs with hsame | ⟨b, -, hb⟩
  · rw [hsame]
    exact h.accounted
  · exact h.accounted.step hb

theorem LockedPool.ok_of_reachable (h : Reachable P.lockedStep (.init sysPath starts) s) : s.Ok :=
  h.invariant (I := LockedPool.Ok) (.init sysPath starts) fun hI hs => hI.step hs

theorem CellsOk.exclusive (h : CellsOk s) (p : ℕ × ℕ) (hw : (s.cells p).waiter.holds = true) :
    (s.cells p).storer.holds = false := by
  cases hc : s.pool.calls[p.1]? with
  | none =>
    rw [show s.cells p = .fresh from h.fresh p.2 hc]
    rfl
  | some call => exact (h.calls p.2 hc).shows.exclusive hw

/-- A caller asleep on a filled slot has a worker that is about to notify it. -/
theorem CellsOk.notifier (h : CellsOk s) (hcall : s.pool.calls[c]? = some call)
    (hasleep : (s.cells (c, next)).waiter = .asleep) : call.done[next]? = some none ∨
      ∃ (w : ℕ) (wk : Worker M Fn) (t : Task), s.pool.workers[w]? = some wk ∧ t.cell = (c, next) ∧
        wk.phase = .releasing t ∧ (s.cells (c, next)).storer = .stored := by
  have hok := h.calls next hcall
  cases hd : call.done[next]? with
  | none =>
    rw [hok.unsent (List.getElem?_eq_none_iff.mp hd)] at hasleep
    cases hasleep
  | some d =>
    cases d with
    | none => exact .inl rfl
    | some r =>
      right
      have hstored := hok.shows.stored_of_asleep (by rw [hd]; exact nofun) hasleep
      obtain ⟨w, wk, hwk, hat⟩ := h.stores (c, next) (by rw [hstored]; rfl)
      rw [hstored] at hat
      obtain ⟨t, hphase, hcell⟩ := hat
      exact ⟨w, wk, t, hwk, hcell, hphase, hstored⟩

/-- **No wake-up is lost** in any run of calls, workers, shutdowns and panics, whenever the
callers wake up: a caller that sleeps on a filled slot is about to be notified by the worker
that filled it. No mutex is held by both its threads, and the pool is in a state that the
pool without mutexes reaches as well. -/
theorem no_lost_wakeup (h : Reachable P.lockedStep (.init sysPath starts) s) :
    (∀ p, ¬ ((s.cells p).storer.holds = true ∧ (s.cells p).waiter.holds = true)) ∧
      (∀ (c next : ℕ) call, s.pool.calls[c]? = some call → (s.cells (c, next)).waiter = .asleep →
        call.done[next]? = some none ∨ ∃ (w : ℕ) (wk : Worker M Fn) (t : Task),
          s.pool.workers[w]? = some wk ∧ t.cell = (c, next) ∧ wk.phase = .releasing t ∧
            (s.cells (c, next)).storer = .stored) ∧
      Reachable P.step (.init sysPath starts) s.pool := by
  have hok := LockedPool.ok_of_reachable h
  refine ⟨fun p ⟨hst, hw⟩ => ?_, fun c next call => hok.cells.notifier, ?_⟩
  · rw [hok.cells.exclusive p hw] at hst
    cases hst
  · obtain ⟨as, hrun⟩ := h
    change ∃ bs, Run P.step (fun _ _ => True) (LockedPool.pool (.init sysPath starts)) bs s.pool
    refine hrun.refines (I := LockedPool.Ok) (.init sysPath starts) (fun hI _ hs => hI.step hs) ?_
    rintro s s' a hI - hs
    rcases hI.cells.refines hs with hsame | ⟨b, -, hb⟩
    · exact .inl hsame
    · exact .inr ⟨b, trivial, hb⟩

end Runs

/-- The caller of `double` sleeps while the worker has stored the result and not told of it. -/
theorem no_lost_wakeup_double : ∃ s : LockedPool (BitVec 64) String Names,
    Reachable demoWorld.lockedStep (.init [] [true]) s ∧
      (∃ call, s.pool.calls[0]? = some call ∧ call.done[0]? = some (some (.ok ())) ∧
        (s.cells (0, 0)).waiter = .asleep) ∧
      ∃ (w : ℕ) (wk : Worker String Names) (t : Task), s.pool.workers[w]? = some wk ∧
        t.cell = (0, 0) ∧ wk.phase = .releasing t ∧ (s.cells (0, 0)).storer = .stored := by
  obtain ⟨s, hrun, call, hcall, hdone, hasleep⟩ : ∃ s : LockedPool (BitVec 64) String Names,
      Run demoWorld.lockedStep (fun _ _ => True) (.init [] [true])
        ([callAt "double" 4096, .call 0, .call 0, .call 0, .call 0, .worker 0 none, .worker 0 none,
          .worker 0 none, .worker 0 none, .worker 0 none, .worker 0 none, .worker 0 none].map .pool) s ∧
      ∃ call, s.pool.calls[0]? = some call ∧ call.done[0]? = some (some (.ok ())) ∧
        (s.cells (0, 0)).waiter = .asleep := ⟨_, run_of_exec rfl, _, rfl, rfl, rfl⟩
  refine ⟨s, hrun.reachable, ⟨call, hcall, hdone, hasleep⟩, ?_⟩
  rcases (no_lost_wakeup hrun.reachable).2.1 0 0 call hcall hasleep with hempty | h
  · rw [hdone] at hempty
    cases hempty
  · exact h

end Gilmap
