import Gilmap.Library.OneShot
import Gilmap.Pool.Buffers
import Gilmap.Pool.Progress

/-! # Mutexes and condition variables of the pool

The pool of `Gilmap.Pool.Model` fills a done slot and looks into it in one step. Here each
slot is a mutex with a condition variable, and the worker's and the caller's threads go
through them in the steps of the source. What the pool's slots hold is what was stored in
the cells; the caller reads the cells only.
-/
namespace Gilmap
open Library
variable {F M Fn Obj : Type}

/-! ## The threads -/

/-- A pool with the cell of each slot, for a call and a chunk of it. -/
structure LockedPool (F M Fn : Type) where
  pool : Pool F M Fn
  cells : ℕ × ℕ → OneShot TaskResult

/-- What `wait_for_tasks` keeps of a result. -/
def noteResult (firstError : Option String) : TaskResult → Option String
  | .ok () => firstError
  | .error err => some (firstError.getD err)

def LockedPool.init (sysPath : List String) (starts : List Bool) : LockedPool F M Fn :=
  ⟨.init sysPath starts, fun _ => .fresh⟩

def Task.cell (t : Task) : ℕ × ℕ := (t.call, t.slot)

namespace LockedPool
variable (s : LockedPool F M Fn)

def onCell (p : ℕ × ℕ) (a : OneShotAction TaskResult) : Option (LockedPool F M Fn) :=
  ((s.cells p).step a).map fun cell => { s with cells := Function.update s.cells p cell }

def onPool (pool : Option (Pool F M Fn)) : Option (LockedPool F M Fn) :=
  pool.map fun pool => { s with pool := pool }

/-- The next step of the call `c`. The guard of a slot is dropped before the next slot is
locked. -/
def stepCall (c : ℕ) : Option (LockedPool F M Fn) := do
  let call ← s.pool.calls[c]?
  match call.phase with
  | .sending | .returned _ => s.onPool (s.pool.stepCall c)
  | .waiting next firstError =>
    if 0 < next ∧ (s.cells (c, next - 1)).waiter = .taken then s.onCell (c, next - 1) .leave
    else if next < call.done.length then
      match (s.cells (c, next)).waiter, (s.cells (c, next)).value with
      | .checking, none => s.onCell (c, next) .sleep
      | .checking, some result => do
        let s' ← s.onCell (c, next) .take
        s'.onPool (some (s.pool.setCall c
          { call with phase := .waiting (next + 1) (noteResult firstError result) }))
      | _, _ => s.onCell (c, next) .enter
    else s.onPool (s.pool.stepCall c)

/-- The next step of the worker `w`. The guard is dropped before the task is. -/
def stepWorker (P : PyWorld F M Fn Obj) (w : ℕ) (fault : Option (ℕ × String)) :
    Option (LockedPool F M Fn) := do
  let wk ← s.pool.workers[w]?
  match wk.phase with
  | .finishing t result =>
    match (s.cells t.cell).storer with
    | .holding => do
      let s' ← s.onCell t.cell (.store result)
      s'.onPool (s.pool.stepWorker P w fault)
    | _ => s.onCell t.cell .lock
  | .releasing t =>
    match (s.cells t.cell).storer with
    | .stored => s.onCell t.cell .notify
    | .notified => s.onCell t.cell .unlock
    | _ => s.onPool (s.pool.stepWorker P w fault)
  | _ => s.onPool (s.pool.stepWorker P w fault)

/-- Nothing panics while a guard is held. -/
def crash (w : ℕ) : Option (LockedPool F M Fn) := do
  let wk ← s.pool.workers[w]?
  match wk.phase with
  | .finishing t _ => if (s.cells t.cell).storer = .outside then s.onPool (s.pool.crash w) else none
  | _ => s.onPool (s.pool.crash w)

/-- The caller's thread wakes up for no reason. -/
def wake (c : ℕ) : Option (LockedPool F M Fn) := do
  let call ← s.pool.calls[c]?
  match call.phase with
  | .waiting next _ => s.onCell (c, next) .wake
  | .sending | .returned _ => none

end LockedPool

inductive LockedAction (F : Type)
  | pool (a : PoolAction F)
  | wake (c : ℕ)

def PyWorld.lockedStep (P : PyWorld F M Fn Obj) (s : LockedPool F M Fn) :
    LockedAction F → Option (LockedPool F M Fn)
  | .pool (.call c) => s.stepCall c
  | .pool (.worker w fault) => s.stepWorker P w fault
  | .pool (.crash w) => s.crash w
  | .pool a => s.onPool (P.step s.pool a)
  | .wake c => s.wake c

/-! ## Steps by cases -/

namespace LockedPool

/-- The guard of the slot before `next` is dropped. -/
def Dropped (s : LockedPool F M Fn) (c next : ℕ) : Prop :=
  ¬ (0 < next ∧ (s.cells (c, next - 1)).waiter = .taken)

/-- The cell `p` takes its next step. -/
def setCell (s : LockedPool F M Fn) (p : ℕ × ℕ) (cell : OneShot TaskResult) : LockedPool F M Fn :=
  { s with cells := Function.update s.cells p cell }

end LockedPool

/-- The cases of `LockedPool.stepCall`. -/
inductive LockedCall (s : LockedPool F M Fn) (c : ℕ) (call : Call F) : LockedPool F M Fn → Prop
  | plain {pool : Pool F M Fn} : (∀ next firstError, call.phase = .waiting next firstError →
      s.Dropped c next ∧ call.done.length ≤ next) → s.pool.stepCall c = some pool →
      LockedCall s c call { s with pool := pool }
  | leave {next : ℕ} {firstError : Option String} {cell : OneShot TaskResult} :
      call.phase = .waiting (next + 1) firstError → (s.cells (c, next)).step .leave = some cell →
      LockedCall s c call (s.setCell (c, next) cell)
  | look {next : ℕ} {firstError : Option String} {a : OneShotAction TaskResult}
      {cell : OneShot TaskResult} : call.phase = .waiting next firstError → s.Dropped c next →
      next < call.done.length → a = .enter ∨ a = .sleep → (s.cells (c, next)).step a = some cell →
      LockedCall s c call (s.setCell (c, next) cell)
  | take {next : ℕ} {firstError : Option String} {result : TaskResult} {cell : OneShot TaskResult} :
      call.phase = .waiting next firstError → s.Dropped c next → next < call.done.length →
      (s.cells (c, next)).waiter = .checking → (s.cells (c, next)).value = some result →
      (s.cells (c, next)).step .take = some cell →
      LockedCall s c call { s.setCell (c, next) cell with
        pool := s.pool.setCall c
          { call with phase := .waiting (next + 1) (noteResult firstError result) } }

/-- The cases of `LockedPool.stepWorker`. -/
inductive LockedWorker (P : PyWorld F M Fn Obj) (s : LockedPool F M Fn) (w : ℕ)
    (fault : Option (ℕ × String)) (wk : Worker M Fn) : LockedPool F M Fn → Prop
  | plain {pool : Pool F M Fn} : (∀ t r, wk.phase ≠ .finishing t r) →
      (∀ t, wk.phase = .releasing t → (s.cells t.cell).storer ≠ .stored ∧
        (s.cells t.cell).storer ≠ .notified) → s.pool.stepWorker P w fault = some pool →
      LockedWorker P s w fault wk { s with pool := pool }
  | lock {t : Task} {r : TaskResult} {cell : OneShot TaskResult} : wk.phase = .finishing t r →
      (s.cells t.cell).step .lock = some cell → LockedWorker P s w fault wk (s.setCell t.cell cell)
  | store {t : Task} {r : TaskResult} {cell : OneShot TaskResult} {pool : Pool F M Fn} :
      wk.phase = .finishing t r → (s.cells t.cell).step (.store r) = some cell →
      s.pool.stepWorker P w fault = some pool →
      LockedWorker P s w fault wk { s.setCell t.cell cell with pool := pool }
  | tell {t : Task} {a : OneShotAction TaskResult} {cell : OneShot TaskResult} :
      wk.phase = .releasing t → a = .notify ∨ a = .unlock → (s.cells t.cell).step a = some cell →
      LockedWorker P s w fault wk (s.setCell t.cell cell)

section Cases
variable {P : PyWorld F M Fn Obj} {s s' : LockedPool F M Fn} {p : ℕ × ℕ}
  {a : OneShotAction TaskResult} {c w : ℕ} {fault : Option (ℕ × String)}

theorem LockedPool.onCell_eq_some (h : s.onCell p a = some s') :
    ∃ cell, (s.cells p).step a = some cell ∧ s' = s.setCell p cell := by
  obtain ⟨cell, hcell, rfl⟩ := Option.map_eq_some_iff.mp h
  exact ⟨cell, hcell, rfl⟩

theorem LockedPool.onPool_eq_some {pool : Option (Pool F M Fn)} (h : s.onPool pool = some s') :
    ∃ p, pool = some p ∧ s' = { s with pool := p } := by
  obtain ⟨p, hp, rfl⟩ := Option.map_eq_some_iff.mp h
  exact ⟨p, hp, rfl⟩

theorem lockedCall_cases (h : s.stepCall c = some s') :
    ∃ call, s.pool.calls[c]? = some call ∧ LockedCall s c call s' := by
  obtain ⟨call, hcall, h⟩ := Option.bind_eq_some_iff.mp h
  refine ⟨call, hcall, ?_⟩
  split at h
  · rename_i hphase
    obtain ⟨pool, hpool, rfl⟩ := LockedPool.onPool_eq_some h
    exact .plain (fun _ _ hw => by rw [hphase] at hw; cases hw) hpool
  · rename_i result hphase
    obtain ⟨pool, hpool, rfl⟩ := LockedPool.onPool_eq_some h
    exact .plain (fun _ _ hw => by rw [hphase] at hw; cases hw) hpool
  · rename_i next firstError hphase
    split at h
    · rename_i htaken
      obtain ⟨next, rfl⟩ := Nat.exists_eq_succ_of_ne_zero htaken.1.ne'
      obtain ⟨cell, hcell, rfl⟩ := LockedPool.onCell_eq_some h
      exact .leave hphase hcell
    · rename_i hdropped
      split at h
      · rename_i hlt
        split at h
        · obtain ⟨cell, hcell, rfl⟩ := LockedPool.onCell_eq_some h
          exact .look hphase hdropped hlt (.inr rfl) hcell
        · rename_i result hwaiter hvalue
          obtain ⟨s₁, hs₁, h⟩ := Option.bind_eq_some_iff.mp h
          obtain ⟨cell, hcell, rfl⟩ := LockedPool.onCell_eq_some hs₁
          cases h
          exact .take hphase hdropped hlt hwaiter hvalue hcell
        · obtain ⟨cell, hcell, rfl⟩ := LockedPool.onCell_eq_some h
          exact .look hphase hdropped hlt (.inl rfl) hcell
      · rename_i hge
        obtain ⟨pool, hpool, rfl⟩ := LockedPool.onPool_eq_some h
        refine .plain (fun n e hw => ?_) hpool
        rw [hphase] at hw
        cases hw
        exact ⟨hdropped, not_lt.mp hge⟩

theorem lockedWorker_cases (h : s.stepWorker P w fault = some s') :
    ∃ wk, s.pool.workers[w]? = some wk ∧ LockedWorker P s w fault wk s' := by
  obtain ⟨wk, hwk, h⟩ := Option.bind_eq_some_iff.mp h
  refine ⟨wk, hwk, ?_⟩
  split at h
  · rename_i t r hphase
    split at h
    · obtain ⟨s₁, hs₁, h⟩ := Option.bind_eq_some_iff.mp h
      obtain ⟨cell, hcell, rfl⟩ := LockedPool.onCell_eq_some hs₁
      obtain ⟨pool, hpool, rfl⟩ := LockedPool.onPool_eq_some h
      exact .store hphase hcell hpool
    · obtain ⟨cell, hcell, rfl⟩ := LockedPool.onCell_eq_some h
      exact .lock hphase hcell
  · rename_i t hphase
    split at h
    · obtain ⟨cell, hcell, rfl⟩ := LockedPool.onCell_eq_some h
      exact .tell hphase (.inl rfl) hcell
    · obtain ⟨cell, hcell, rfl⟩ := LockedPool.onCell_eq_some h
      exact .tell hphase (.inr rfl) hcell
    · rename_i hstored hnotified
      obtain ⟨pool, hpool, rfl⟩ := LockedPool.onPool_eq_some h
      refine .plain (fun t r he => ?_) (fun t' ht => ?_) hpool
      · rw [hphase] at he
        cases he
      · rw [hphase] at ht
        cases ht
        exact ⟨hstored, hnotified⟩
  · rename_i hfinishing hreleasing
    obtain ⟨pool, hpool, rfl⟩ := LockedPool.onPool_eq_some h
    exact .plain hfinishing (fun t ht => absurd ht (hreleasing t)) hpool

theorem lockedCrash_cases (h : s.crash w = some s') : ∃ wk pool, s.pool.workers[w]? = some wk ∧
    (∀ t r, wk.phase = .finishing t r → (s.cells t.cell).storer = .outside) ∧
    s.pool.crash w = some pool ∧ s' = { s with pool := pool } := by
  obtain ⟨wk, hwk, h⟩ := Option.bind_eq_some_iff.mp h
  split at h
  · rename_i t r hphase
    split at h
    · obtain ⟨pool, hpool, rfl⟩ := LockedPool.onPool_eq_some h
      refine ⟨wk, pool, hwk, fun t' r' he => ?_, hpool, rfl⟩
      rw [hphase] at he
      cases he
      assumption
    · cases h
  · rename_i hne
    obtain ⟨pool, hpool, rfl⟩ := LockedPool.onPool_eq_some h
    exact ⟨wk, pool, hwk, fun t r he => absurd he (hne t r), hpool, rfl⟩

theorem wake_cases (h : s.wake c = some s') : ∃ call next firstError cell,
    s.pool.calls[c]? = some call ∧ call.phase = .waiting next firstError ∧
    (s.cells (c, next)).step .wake = some cell ∧ s' = s.setCell (c, next) cell := by
  obtain ⟨call, hcall, h⟩ := Option.bind_eq_some_iff.mp h
  split at h
  · rename_i next firstError hphase
    obtain ⟨cell, hcell, rfl⟩ := LockedPool.onCell_eq_some h
    exact ⟨call, next, firstError, cell, hcall, hphase, hcell, rfl⟩
  · cases h
  · cases h

end Cases

end Gilmap
