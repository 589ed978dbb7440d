import Gilmap.Pool.FunctionCache

/-! # Orphaned tasks

A task that was sent and not answered is served while a live worker runs it, or while it
waits in the channel behind fewer shutdown messages than there are live workers: each of
these messages takes one worker away. An unserved task is never answered.
-/
namespace Gilmap
open Library
variable {F M Fn Obj : Type}

/-- The worker has started or will start, and has not left its loop. -/
def Worker.live (wk : Worker M Fn) : Bool :=
  wk.startsOk && match wk.phase with
    | .exiting | .exited => false
    | .starting | .idle | .resolving _ | .running _ _ _ | .finishing _ _ | .releasing _ => true

/-- The task that a worker has yet to answer. -/
def WorkerPhase.pending? : WorkerPhase Fn → Option Task
  | .resolving t | .running t _ _ | .finishing t _ => some t
  | .starting | .idle | .releasing _ | .exiting | .exited => none

def WorkerMessage.isShutdown : WorkerMessage → Bool
  | .task _ => false
  | .shutdown => true

namespace Pool
variable (s : Pool F M Fn) (t : Task)

def liveCount : ℕ := s.workers.countP Worker.live

/-- The shutdown messages in front of the message `i` of the channel. -/
def shutdownsBefore (i : ℕ) : ℕ := (s.queue.take i).countP WorkerMessage.isShutdown

/-- The task was sent and its slot is empty. -/
def Unanswered : Prop := ∃ call, TaskAt s.calls t call ∧ call.done[t.slot]? = some none

/-- A live worker runs the task, or one will take it out of the channel. -/
def Served : Prop :=
  (∃ wk ∈ s.workers, wk.live = true ∧ wk.phase.pending? = some t) ∨
    ∃ i : ℕ, s.queue[i]? = some (.task t) ∧ s.shutdownsBefore i < s.liveCount

def NoOrphan : Prop := ∀ t, s.Unanswered t → s.Served t

/-- Where unanswered tasks can be. -/
def Holds : Prop :=
  .task t ∈ s.queue ∨ ∃ wk ∈ s.workers, wk.phase.pending? = some t

end Pool

/-- A send is safe if the channel holds fewer shutdown messages than there are live workers. -/
def SendSafe (s : Pool F M Fn) : PoolAction F → Prop
  | .call c => ∀ call, s.calls[c]? = some call → call.phase = .sending →
    call.done.length < call.chunks.length → s.disconnected = false →
    s.shutdownsBefore s.queue.length < s.liveCount
  | .execute _ _ _ _ | .worker _ _ | .shutdownWorkers | .shutdown _ | .crash _ => True

def PoolAction.isCrash : PoolAction F → Bool
  | .crash _ => true
  | .execute _ _ _ _ | .call _ | .worker _ _ | .shutdownWorkers | .shutdown _ => false

/-! ## Workers that failed to start, and tasks on their way -/

/-- A worker that does not start never gets to its loop, and the tasks on their way are
tasks of their calls. -/
structure Accounted (s : Pool F M Fn) : Prop where
  started : ∀ wk ∈ s.workers, wk.startsOk = false → wk.phase = .starting ∨ wk.phase = .exited
  held : ∀ t, s.Holds t → ∃ call, TaskAt s.calls t call

section Steps
variable {P : PyWorld F M Fn Obj} {s s' : Pool F M Fn} {a : PoolAction F} {t : Task}
  {wk wk' : Worker M Fn} {w : ℕ}

/-! ## Who serves a task -/

/-- What a worker's state says about the tasks of the pool. -/
def Worker.view (wk : Worker M Fn) : Bool × Option Task := (wk.live, wk.phase.pending?)

theorem Pool.liveCount_congr (hv : s'.workers.map Worker.view = s.workers.map Worker.view) :
    s'.liveCount = s.liveCount := by
  have hcount : ∀ ws : List (Worker M Fn),
      ws.countP Worker.live = (ws.map Worker.view).countP Prod.fst := fun ws => by
    rw [List.countP_map]
    rfl
  rw [Pool.liveCount, Pool.liveCount, hcount, hcount, hv]

theorem Pool.mem_view : (∃ wk ∈ s.workers, wk.live = true ∧ wk.phase.pending? = some t) ↔
    (true, some t) ∈ s.workers.map Worker.view := by
  simp [Worker.view]

/-- A step that changes neither who is live or has a task nor what the workers will still
receive. -/
theorem served_congr (hv : s'.workers.map Worker.view = s.workers.map Worker.view)
    (hq : s'.queue = s.queue ∨ s'.queue = [] ∧ s'.liveCount = 0) : s'.Served t ↔ s.Served t := by
  have hlive := Pool.liveCount_congr hv
  unfold Pool.Served
  rw [Pool.mem_view, Pool.mem_view, hv, hlive]
  rcases hq with hq | ⟨hnil, hzero⟩
  · rw [show s'.shutdownsBefore = s.shutdownsBefore by unfold Pool.shutdownsBefore; rw [hq], hq]
  · rw [← hlive, hzero]
    simp

/-- A message joins the channel behind the others. -/
theorem served_append (msg : WorkerMessage) (hw : s'.workers = s.workers)
    (hq : s'.queue = s.queue ++ [msg]) : s'.Served t ↔ s.Served t ∨
      msg = .task t ∧ s.shutdownsBefore s.queue.length < s.liveCount := by
  have hbefore : ∀ i ≤ s.queue.length, s'.shutdownsBefore i = s.shutdownsBefore i := by
    intro i hi
    rw [Pool.shutdownsBefore, hq, List.take_append_of_le_length hi, Pool.shutdownsBefore]
  unfold Pool.Served Pool.liveCount
  rw [hw, hq, or_assoc]
  refine or_congr_right ⟨?_, ?_⟩
  · rintro ⟨i, hi, hlt⟩
    rcases Nat.lt_trichotomy i s.queue.length with hin | rfl | hout
    · rw [List.getElem?_append_left hin] at hi
      rw [hbefore i hin.le] at hlt
      exact .inl ⟨i, hi, hlt⟩
    · rw [hbefore _ le_rfl] at hlt
      exact .inr ⟨by simpa using hi, hlt⟩
    · rw [List.getElem?_eq_none (by simp; omega)] at hi
      cases hi
  · rintro (⟨i, hi, hlt⟩ | ⟨rfl, hlt⟩)
    · have hin := (List.getElem?_eq_some_iff.mp hi).1
      exact ⟨i, by rwa [List.getElem?_append_left hin], by rwa [hbefore i hin.le]⟩
    · exact ⟨s.queue.length, by simp, by rwa [hbefore _ le_rfl]⟩

theorem exists_mem_set {α : Type} {p : α → Prop} {l : List α} {i : ℕ} {a b : α} (hi : l[i]? = some a) :
    (∃ x ∈ l.set i b, p x) ↔ p b ∨ ∃ j x, i ≠ j ∧ l[j]? = some x ∧ p x := by
  constructor
  · rintro ⟨x, hx, hp⟩
    obtain ⟨j, hj⟩ := List.mem_iff_getElem?.mp hx
    rw [getElem?_set_some hi] at hj
    split at hj
    · cases hj
      exact .inl hp
    · exact .inr ⟨j, x, ‹_›, hj, hp⟩
  · rintro (hp | ⟨j, x, hne, hj, hp⟩)
    · exact ⟨b, List.mem_of_getElem? ((getElem?_set_some hi).trans (if_pos rfl)), hp⟩
    · exact ⟨x, List.mem_of_getElem? ((getElem?_set_some hi).trans (by rwa [if_neg hne])), hp⟩

theorem exists_mem_get {α : Type} {p : α → Prop} {l : List α} {i : ℕ} {a : α} (hi : l[i]? = some a) :
    (∃ x ∈ l, p x) ↔ p a ∨ ∃ j x, i ≠ j ∧ l[j]? = some x ∧ p x := by
  rw [← exists_mem_set hi]
  obtain ⟨hlt, rfl⟩ := List.getElem?_eq_some_iff.mp hi
  rw [List.set_getElem_self]

/-- A live worker takes a shutdown message: one message and one live worker less. -/
theorem served_recvShutdown {rest : List WorkerMessage} (hwk : s.workers[w]? = some wk)
    (hview : wk.view = (true, none)) (hqueue : s.queue = .shutdown :: rest)
    (hw : s'.workers = s.workers.set w wk') (hview' : wk'.view = (false, none))
    (hq : s'.queue = rest) : s'.Served t ↔ s.Served t := by
  obtain ⟨hlive, hpending⟩ := Prod.mk.inj hview
  obtain ⟨hlive', hpending'⟩ := Prod.mk.inj hview'
  have hcount : s'.liveCount + 1 = s.liveCount := by
    have hset := countP_set_add (p := Worker.live) (b := wk') hwk
    rw [hlive, hlive', ← hw] at hset
    simpa [Pool.liveCount] using hset
  have hbefore : ∀ i, s.shutdownsBefore (i + 1) = s'.shutdownsBefore i + 1 := by
    intro i
    rw [Pool.shutdownsBefore, hqueue, List.take_succ_cons, List.countP_cons_of_pos rfl, ← hq]
    rfl
  refine or_congr ?_ ⟨?_, ?_⟩
  · rw [hw, exists_mem_set hwk, exists_mem_get hwk, hlive, hlive', hpending]
    simp
  · rintro ⟨i, hi, hlt⟩
    refine ⟨i + 1, by simpa [hqueue, ← hq] using hi, ?_⟩
    rw [hbefore]
    omega
  · rintro ⟨i, hi, hlt⟩
    cases i with
    | zero => simp [hqueue] at hi
    | succ i =>
      rw [hbefore] at hlt
      exact ⟨i, by simpa [hqueue, ← hq] using hi, by omega⟩

theorem Pool.liveCount_set (hwk : s.workers[w]? = some wk) (hw : s'.workers = s.workers.set w wk')
    (h : wk'.live = wk.live) : s'.liveCount = s.liveCount := by
  have hset := countP_set_add (p := Worker.live) (b := wk') hwk
  rw [h, ← hw] at hset
  exact Nat.add_right_cancel hset

/-- A live worker takes a task: it is now the one that serves it. -/
theorem served_recvTask {t₀ : Task} {rest : List WorkerMessage} (hwk : s.workers[w]? = some wk)
    (hview : wk.view = (true, none)) (hqueue : s.queue = .task t₀ :: rest)
    (hw : s'.workers = s.workers.set w wk') (hview' : wk'.view = (true, some t₀))
    (hq : s'.queue = rest) : s'.Served t ↔ s.Served t := by
  obtain ⟨hlive, hpending⟩ := Prod.mk.inj hview
  obtain ⟨hlive', hpending'⟩ := Prod.mk.inj hview'
  have hcount := Pool.liveCount_set hwk hw (hlive'.trans hlive.symm)
  have hpos : 0 < s.liveCount :=
    List.countP_pos_iff.mpr ⟨wk, List.mem_of_getElem? hwk, hlive⟩
  have hbefore : ∀ i, s.shutdownsBefore (i + 1) = s'.shutdownsBefore i := by
    intro i
    rw [Pool.shutdownsBefore, hqueue, List.take_succ_cons,
      List.countP_cons_of_neg (by simp [WorkerMessage.isShutdown]), ← hq]
    rfl
  have hqueued : (∃ i : ℕ, s.queue[i]? = some (.task t) ∧ s.shutdownsBefore i < s.liveCount) ↔
      t₀ = t ∨ ∃ i : ℕ, s'.queue[i]? = some (.task t) ∧ s'.shutdownsBefore i < s'.liveCount := by
    constructor
    · rintro ⟨i, hi, hlt⟩
      cases i with
      | zero => exact .inl (by simpa [hqueue] using hi)
      | succ i => exact .inr ⟨i, by simpa [hqueue, ← hq] using hi, by rwa [← hbefore, hcount]⟩
    · rintro (rfl | ⟨i, hi, hlt⟩)
      · exact ⟨0, by simp [hqueue], by simpa [Pool.shutdownsBefore] using hpos⟩
      · exact ⟨i + 1, by simpa [hqueue, ← hq] using hi, by rwa [hbefore, ← hcount]⟩
  unfold Pool.Served
  rw [hqueued, hw, exists_mem_set hwk, exists_mem_get hwk, hlive, hlive', hpending, hpending']
  simp only [true_and, Option.some.injEq, reduceCtorEq, false_or]
  rw [or_comm (a := t₀ = t), or_assoc]

/-- A worker that is done with a task goes on serving no other. -/
theorem served_finish (t₀ : Task) (hwk : s.workers[w]? = some wk)
    (hview : wk.view = (true, some t₀)) (hw : s'.workers = s.workers.set w wk')
    (hview' : wk'.view = (true, none)) (hq : s'.queue = s.queue) (hne : t₀ ≠ t) :
    s'.Served t ↔ s.Served t := by
  obtain ⟨hlive, hpending⟩ := Prod.mk.inj hview
  obtain ⟨hlive', hpending'⟩ := Prod.mk.inj hview'
  have hcount := Pool.liveCount_set hwk hw (hlive'.trans hlive.symm)
  unfold Pool.Served Pool.shutdownsBefore
  rw [hcount, hq, hw, exists_mem_set hwk, exists_mem_get hwk, hlive, hlive', hpending, hpending']
  simp [hne]

/-! ## Steps -/

/-- The action sends the task. -/
def Sends (s : Pool F M Fn) (t : Task) : PoolAction F → Prop
  | .call c => c = t.call ∧ s.disconnected = false ∧ ∃ call, s.calls[c]? = some call ∧
    call.phase = .sending ∧ call.done.length = t.slot ∧ call.chunks[t.slot]? = some (t.start, t.len)
  | .execute _ _ _ _ | .worker _ _ | .shutdownWorkers | .shutdown _ | .crash _ => False

theorem Sends.unique {t' : Task} (h : Sends s t a) (h' : Sends s t' a) : t = t' := by
  cases a with
  | call c =>
    obtain ⟨hc, -, call, hcall, -, hslot, hchunk⟩ := h
    obtain ⟨hc', -, call', hcall', -, hslot', hchunk'⟩ := h'
    have hsame := hcall.symm.trans hcall'
    cases hsame
    obtain ⟨tc, tk, start, len⟩ := t
    obtain ⟨tc', tk', start', len'⟩ := t'
    cases hc
    cases hc'
    cases hslot
    cases hslot'
    have hsame := hchunk.symm.trans hchunk'
    cases hsame
    rfl
  | execute | worker | shutdownWorkers | shutdown | crash => exact h.elim

/-- What a call's step does to the channel. -/
theorem CallStep.channel {c : ℕ} {call : Call F} (h : CallStep s c call s')
    (hcall : s.calls[c]? = some call) : (s'.queue = s.queue ∧ ∀ t, ¬ Sends s t (.call c)) ∨
      ∃ t, Sends s t (.call c) ∧ s'.queue = s.queue ++ [.task t] ∧ s'.Unanswered t := by
  have hnot : call.phase ≠ .sending ∨ call.chunks[call.done.length]? = none ∨ s.disconnected = true →
      ∀ t, ¬ Sends s t (.call c) := by
    rintro hcases t ⟨-, hconn, call', hcall', hphase, hslot, hchunk⟩
    rw [hcall] at hcall'
    cases hcall'
    rcases hcases with hne | hnone | hdisc
    · exact hne hphase
    · rw [hslot, hchunk] at hnone
      cases hnone
    · rw [hconn] at hdisc
      cases hdisc
  cases h with
  | allSent _ hnone => exact .inl ⟨rfl, hnot (.inr (.inl hnone))⟩
  | sendFailed _ _ hdisc => exact .inl ⟨rfl, hnot (.inr (.inr hdisc))⟩
  | finish hphase | waitOk hphase | waitErr hphase =>
    exact .inl ⟨rfl, hnot (.inl (by rw [hphase]; exact nofun))⟩
  | send hphase hchunk hconn =>
    refine .inr ⟨_, ⟨rfl, hconn, call, hcall, hphase, rfl, hchunk⟩, rfl, _,
      ⟨(getElem?_set_some hcall).trans (if_pos rfl), hchunk, ?_⟩, ?_⟩
    · simp
    · simp

/-- What is sent was not there before. -/
theorem Sends.not_taskAt (h : Sends s t a) (call : Call F) : ¬ TaskAt s.calls t call := by
  rintro ⟨hcall, -, hslot⟩
  cases a with
  | call c =>
    obtain ⟨rfl, -, call', hcall', -, hslot', -⟩ := h
    rw [hcall] at hcall'
    cases hcall'
    omega
  | execute | worker | shutdownWorkers | shutdown | crash => exact h.elim

theorem Pool.Served.holds (h : s.Served t) : s.Holds t := by
  rcases h with ⟨wk, hwk, -, hp⟩ | ⟨i, hi, -⟩
  · exact .inr ⟨wk, hwk, hp⟩
  · exact .inl (List.mem_of_getElem? hi)

theorem unanswered_congr (hc : s'.calls = s.calls) : s'.Unanswered t ↔ s.Unanswered t := by
  rw [Pool.Unanswered, Pool.Unanswered, hc]

/-- A call changes but for its slots. -/
theorem unanswered_setCall {c : ℕ} {call : Call F} (results) (phase) (hcall : s.calls[c]? = some call)
    (hc : s'.calls = s.calls.set c { call with results := results, phase := phase }) :
    s'.Unanswered t ↔ s.Unanswered t := by
  rw [Pool.Unanswered, Pool.Unanswered, hc]
  unfold TaskAt
  rw [getElem?_set_some hcall]
  split
  · rename_i he
    subst he
    rw [hcall]
    simp
  · rfl

/-- A task is unanswered after a step if it was before or was sent by it. -/
theorem unanswered_of_step (hs : P.step s a = some s') (ht : s'.Unanswered t) :
    s.Unanswered t ∨ Sends s t a := by
  cases a with
  | execute names sysPath array addr =>
    obtain ⟨-, rfl | ⟨d, zero, input, rfl⟩⟩ := begin_cases hs
    · exact .inl ht
    · obtain ⟨call, ⟨hcall, hchunk, hslot⟩, hnone⟩ := ht
      rcases getElem?_concat_cases hcall with hold | rfl
      · exact .inl ⟨call, ⟨hold, hchunk, hslot⟩, hnone⟩
      · cases hslot
  | call c =>
    obtain ⟨call, hcall, hstep⟩ := stepCall_cases hs
    cases hstep with
    | allSent | sendFailed | finish | waitOk | waitErr =>
      exact .inl ((unanswered_setCall call.results _ hcall rfl).mp ht)
    | send hphase hchunk hconn =>
      obtain ⟨call', ⟨hcall', hchunk', hslot⟩, hnone⟩ := ht
      rw [Pool.setCall_calls, getElem?_set_some hcall] at hcall'
      split at hcall'
      · rename_i he
        cases hcall'
        by_cases hold : t.slot < call.done.length
        · rw [List.getElem?_append_left hold] at hnone
          exact .inl ⟨call, ⟨he ▸ hcall, hchunk', hold⟩, hnone⟩
        · have hslot' : call.done.length = t.slot := by
            rw [List.length_append, List.length_singleton] at hslot
            omega
          exact .inr ⟨he, hconn, call, hcall, hphase, hslot', hchunk'⟩
      · exact .inl ⟨call', ⟨hcall', hchunk', hslot⟩, hnone⟩
  | worker w fault =>
    obtain ⟨wk, -, hstep⟩ := stepWorker_cases hs
    cases hstep with
    | @element _ _ _ call _ _ _ hcall =>
      exact .inl ((unanswered_setCall _ call.phase hcall rfl).mp ht)
    | @finish t₀ result call _ hcall =>
      obtain ⟨call', ⟨hcall', hchunk', hslot⟩, hnone⟩ := ht
      rw [Pool.setPhase_calls, Pool.setCall_calls, getElem?_set_some hcall] at hcall'
      split at hcall'
      · rename_i he
        cases hcall'
        rw [List.length_set] at hslot
        rcases getElem?_set_cases hnone with hold | hnew
        · exact .inl ⟨call, ⟨he ▸ hcall, hchunk', hslot⟩, hold⟩
        · cases hnew
      · exact .inl ⟨call', ⟨hcall', hchunk', hslot⟩, hnone⟩
    | startFailed | exit => exact .inl ((unanswered_congr Pool.exit_calls).mp ht)
    | started | recvShutdown | recvTask | resolved | resolveFailed | elementFailed | elementsDone
    | release => exact .inl ht
  | shutdownWorkers =>
    cases hs
    exact .inl ht
  | shutdown k => cases stepShutdown_cases hs <;> exact .inl ht
  | crash w =>
    obtain ⟨wk, -, rfl⟩ := crash_cases hs
    exact .inl ((unanswered_congr Pool.exit_calls).mp ht)

theorem Accounted.live (h : Accounted s) (hwk : s.workers[w]? = some wk) (hne : wk.phase ≠ .starting)
    (hne' : wk.phase ≠ .exited) : wk.startsOk = true := by
  cases hok : wk.startsOk with
  | true => rfl
  | false =>
    rcases h.started wk (List.mem_of_getElem? hwk) hok with he | he
    · exact absurd he hne
    · exact absurd he hne'

/-- The worker whose step it is is about to answer the task. -/
def Answers (s : Pool F M Fn) (t : Task) (a : PoolAction F) : Prop :=
  ∃ w wk r, a.worker? = some w ∧ s.workers[w]? = some wk ∧ wk.phase = .finishing t r

theorem Accounted.served_of_answers (h : Accounted s) (ha : Answers s t a) : s.Served t := by
  obtain ⟨w, wk, r, -, hwk, hphase⟩ := ha
  have hlive := h.live hwk (by simp [hphase]) (by simp [hphase])
  exact .inl ⟨wk, List.mem_of_getElem? hwk, by simp [Worker.live, hlive, hphase],
    by simp [WorkerPhase.pending?, hphase]⟩

/-- Only the worker that runs a task answers it. -/
theorem unanswered_stays (hacc : Accounted s) (ht : s.Unanswered t) (hn : ¬ Answers s t a)
    (hs : P.step s a = some s') : s'.Unanswered t := by
  obtain ⟨call, hat, hnone⟩ := ht
  cases a with
  | execute names sysPath array addr =>
    obtain ⟨-, rfl | ⟨d, zero, input, rfl⟩⟩ := begin_cases hs
    · exact ⟨call, hat, hnone⟩
    · refine ⟨call, ⟨?_, hat.2⟩, hnone⟩
      rw [List.getElem?_append_left (List.getElem?_eq_some_iff.mp hat.1).1]
      exact hat.1
  | call c =>
    obtain ⟨call₁, hcall, hstep⟩ := stepCall_cases hs
    cases hstep with
    | allSent | sendFailed | finish | waitOk | waitErr =>
      exact (unanswered_setCall call₁.results _ hcall rfl).mpr ⟨call, hat, hnone⟩
    | send =>
      obtain ⟨hcall', hchunk, hslot⟩ := hat
      unfold Pool.Unanswered TaskAt
      simp only [Pool.setCall_calls]
      rw [getElem?_set_some hcall]
      split
      · rename_i he
        subst he
        rw [hcall] at hcall'
        cases hcall'
        refine ⟨_, ⟨rfl, hchunk, ?_⟩, ?_⟩
        · rw [List.length_append]
          omega
        · rwa [List.getElem?_append_left hslot]
      · exact ⟨call, ⟨hcall', hchunk, hslot⟩, hnone⟩
  | worker w fault =>
    obtain ⟨wk, hwk, hstep⟩ := stepWorker_cases hs
    cases hstep with
    | @element _ _ _ call₁ _ _ _ hcall =>
      exact (unanswered_setCall _ call₁.phase hcall rfl).mpr ⟨call, hat, hnone⟩
    | @finish t₀ result call₁ hphase hcall =>
      have hne : ¬ (t₀.call = t.call ∧ t₀.slot = t.slot) := by
        rintro ⟨hcalls, hslots⟩
        obtain ⟨call₂, hat₀⟩ := hacc.held t₀ (.inr ⟨wk, List.mem_of_getElem? hwk, by
          simp [WorkerPhase.pending?, hphase]⟩)
        cases hat₀.unique hat hcalls hslots
        exact hn ⟨w, wk, result, rfl, hwk, hphase⟩
      obtain ⟨hcall', hchunk, hslot⟩ := hat
      unfold Pool.Unanswered TaskAt
      simp only [Pool.setPhase_calls, Pool.setCall_calls]
      rw [getElem?_set_some hcall]
      split
      · rename_i he
        rw [← he, hcall] at hcall'
        cases hcall'
        refine ⟨_, ⟨rfl, hchunk, by simpa using hslot⟩, ?_⟩
        rwa [List.getElem?_set_ne fun hslots => hne ⟨he, hslots⟩]
      · exact ⟨call, ⟨hcall', hchunk, hslot⟩, hnone⟩
    | startFailed | exit => exact (unanswered_congr Pool.exit_calls).mpr ⟨call, hat, hnone⟩
    | started | recvShutdown | recvTask | resolved | resolveFailed | elementFailed | elementsDone
    | release => exact ⟨call, hat, hnone⟩
  | shutdownWorkers =>
    cases hs
    exact ⟨call, hat, hnone⟩
  | shutdown k => cases stepShutdown_cases hs <;> exact ⟨call, hat, hnone⟩
  | crash w =>
    obtain ⟨wk, -, rfl⟩ := crash_cases hs
    exact (unanswered_congr Pool.exit_calls).mpr ⟨call, hat, hnone⟩

/-- What becomes of a worker: none that has not started will start again. -/
theorem WorkerStep.worker {fault : Option (ℕ × String)} (h : WorkerStep P s w fault wk s') :
    ∃ wk', s'.workers = s.workers.set w wk' ∧ wk'.startsOk = wk.startsOk ∧
      (wk'.phase = .exited ∨ wk.startsOk = true ∨ wk.phase ≠ .starting ∧ wk.phase ≠ .exited) ∧
      (wk'.phase.pending? = none ∨ wk'.phase.pending? = wk.phase.pending? ∨
        ∃ t rest, wk'.phase.pending? = some t ∧ s.queue = .task t :: rest) := by
  cases h with
  | startFailed | exit => exact ⟨_, Pool.exit_workers, rfl, .inl rfl, .inl rfl⟩
  | started _ hok => exact ⟨_, rfl, rfl, .inr (.inl hok), .inl rfl⟩
  | recvTask hphase hqueue =>
    exact ⟨_, rfl, rfl, .inr (.inr (by simp [hphase])), .inr (.inr ⟨_, _, rfl, hqueue⟩)⟩
  | recvShutdown hphase | finish hphase | release hphase =>
    exact ⟨_, rfl, rfl, .inr (.inr (by simp [hphase])), .inl rfl⟩
  | resolved hphase | resolveFailed hphase | element hphase | elementFailed hphase
  | elementsDone hphase =>
    refine ⟨_, rfl, rfl, .inr (.inr (by simp [hphase])), .inr (.inl ?_)⟩
    simp [WorkerPhase.pending?, hphase]

theorem WorkerStep.queue {fault : Option (ℕ × String)} (h : WorkerStep P s w fault wk s') :
    ∀ msg ∈ s'.queue, msg ∈ s.queue := by
  cases h with
  | startFailed | exit =>
    intro msg hm
    rcases s.exit_queue w wk with hq | hq
    · rwa [hq] at hm
    · rw [hq] at hm
      cases hm
  | recvShutdown _ hqueue | recvTask _ hqueue =>
    intro msg hm
    rw [hqueue]
    exact List.mem_cons_of_mem _ hm
  | started | resolved | resolveFailed | element | elementFailed | elementsDone | finish | release =>
    exact fun _ hm => hm

/-- A task on its way after a step was so before, or was sent. -/
theorem holds_of_step (hs : P.step s a = some s') (ht : s'.Holds t) : s.Holds t ∨ Sends s t a := by
  cases a with
  | execute names sysPath array addr =>
    obtain ⟨-, rfl | ⟨d, zero, input, rfl⟩⟩ := begin_cases hs <;> exact .inl ht
  | call c =>
    obtain ⟨call, hcall, hstep⟩ := stepCall_cases hs
    rcases hstep.channel hcall with ⟨hqueue, -⟩ | ⟨t', hsends, hqueue, -⟩
    · rw [Pool.Holds, hqueue, hstep.workers] at ht
      exact .inl ht
    · rw [Pool.Holds, hqueue, hstep.workers] at ht
      rcases ht with hq | hw
      · rcases List.mem_append.mp hq with hold | hnew
        · exact .inl (.inl hold)
        · cases List.mem_singleton.mp hnew
          exact .inr hsends
      · exact .inl (.inr hw)
  | worker w fault =>
    obtain ⟨wk, hwk, hstep⟩ := stepWorker_cases hs
    refine .inl ?_
    rcases ht with hq | hw
    · exact .inl (hstep.queue _ hq)
    · obtain ⟨wk', hworkers, -, -, hpending⟩ := hstep.worker
      rw [hworkers, exists_mem_set hwk] at hw
      rcases hw with hnew | ⟨j, x, -, hx, hold⟩
      · rcases hpending with hnone | hsame | ⟨t', rest, hsome, hqueue⟩
        · rw [hnone] at hnew
          cases hnew
        · exact .inr ⟨wk, List.mem_of_getElem? hwk, hsame ▸ hnew⟩
        · rw [hsome] at hnew
          cases hnew
          exact .inl (by simp [hqueue])
      · exact .inr ⟨x, List.mem_of_getElem? hx, hold⟩
  | shutdownWorkers =>
    cases hs
    exact .inl ht
  | shutdown k =>
    cases stepShutdown_cases hs with
    | quiet => exact .inl ht
    | send =>
      rcases ht with hq | hw
      · exact .inl (.inl (by simpa using hq))
      · exact .inl (.inr hw)
  | crash w =>
    obtain ⟨wk, hwk, rfl⟩ := crash_cases hs
    refine .inl ?_
    rcases ht with hq | hw
    · rcases s.exit_queue w wk with hsame | hnil
      · exact .inl (hsame ▸ hq)
      · rw [hnil] at hq
        cases hq
    · rw [Pool.exit_workers, exists_mem_set hwk] at hw
      rcases hw with hnew | ⟨j, x, -, hx, hold⟩
      · cases hnew
      · exact .inr ⟨x, List.mem_of_getElem? hx, hold⟩

theorem Sends.unanswered (h : Sends s t a) (hs : P.step s a = some s') : s'.Unanswered t := by
  cases a with
  | call c =>
    obtain ⟨call, hcall, hstep⟩ := stepCall_cases hs
    rcases hstep.channel hcall with ⟨-, hnot⟩ | ⟨t', hsends, -, hnew⟩
    · exact absurd h (hnot t)
    · exact h.unique hsends ▸ hnew
  | execute | worker | shutdownWorkers | shutdown | crash => exact h.elim

theorem Accounted.step (h : Accounted s) (hs : P.step s a = some s') : Accounted s' where
  started wk' hwk' hfails := by
    obtain ⟨w, hw⟩ := List.mem_iff_getElem?.mp hwk'
    by_cases ha : a.worker? = some w
    · cases a with
      | worker w' fault =>
        cases ha
        obtain ⟨wk, hwk, hstep⟩ := stepWorker_cases hs
        obtain ⟨wk₁, hworkers, hstarts, hcases, -⟩ := hstep.worker
        rw [hworkers] at hw
        cases getElem?_set_self_some hwk hw
        rcases hcases with hexit | hok | ⟨hne, hne'⟩
        · exact .inr hexit
        · rw [hstarts, hok] at hfails
          cases hfails
        · rw [hstarts, h.live hwk hne hne'] at hfails
          cases hfails
      | crash w' =>
        cases ha
        obtain ⟨wk, hwk, rfl⟩ := crash_cases hs
        rw [Pool.exit_workers] at hw
        cases getElem?_set_self_some hwk hw
        exact .inr rfl
      | execute | call | shutdownWorkers | shutdown => cases ha
    · rw [step_others hs ha] at hw
      exact h.started wk' (List.mem_of_getElem? hw) hfails
  held t ht := by
    rcases holds_of_step hs ht with hold | hsent
    · obtain ⟨call, hat⟩ := h.held t hold
      exact hat.step hs
    · obtain ⟨call, hat, -⟩ := hsent.unanswered hs
      exact ⟨call, hat⟩

theorem Accounted.init (sysPath : List String) (starts : List Bool) :
    Accounted (Pool.init sysPath starts : Pool F M Fn) := by
  refine ⟨fun wk hwk _ => ?_, fun t ht => ?_⟩
  · obtain ⟨ok, -, rfl⟩ := List.mem_map.mp hwk
    exact .inl rfl
  · rcases ht with hq | ⟨wk, hwk, hp⟩
    · cases hq
    · obtain ⟨ok, -, rfl⟩ := List.mem_map.mp hwk
      cases hp

theorem Pool.noOrphan_init (sysPath : List String) (starts : List Bool) :
    (Pool.init sysPath starts : Pool F M Fn).NoOrphan := by
  rintro t ⟨call, ⟨hcall, -⟩, -⟩
  simp [Pool.init] at hcall

theorem accounted_of_reachable {sysPath : List String} {starts : List Bool}
    (h : Reachable P.step (Pool.init sysPath starts) s) : Accounted s :=
  h.invariant (I := Accounted) (.init sysPath starts) fun hI hs => hI.step hs

theorem view_exited : ({ wk with phase := .exited } : Worker M Fn).view = (false, none) := by
  simp [Worker.view, Worker.live, WorkerPhase.pending?]

/-- With the last receiver goes the last live worker. -/
theorem Pool.exit_drained (w : ℕ) (wk : Worker M Fn) : (s.exit w wk).queue = s.queue ∨
    (s.exit w wk).queue = [] ∧ (s.exit w wk).liveCount = 0 := by
  unfold Pool.exit
  dsimp only
  split
  · rename_i hdisc
    refine .inr ⟨rfl, List.countP_eq_zero.mpr fun x hx hlive => ?_⟩
    have hexit := List.all_eq_true.mp hdisc x hx
    cases hphase : x.phase <;> simp [hphase, WorkerPhase.isExited, Worker.live] at hexit hlive
  · exact .inl rfl

theorem served_exit (hwk : s.workers[w]? = some wk) (hview : wk.view = (false, none)) :
    (s.exit w wk).Served t ↔ s.Served t := by
  refine served_congr ?_ (Pool.exit_drained w wk)
  rw [Pool.exit_workers]
  exact map_set_of_eq hwk (view_exited.trans hview.symm)

/-- A worker's step changes nothing about who serves a task, unless it answers it. -/
theorem WorkerStep.served {fault : Option (ℕ × String)} (hacc : Accounted s)
    (hwk : s.workers[w]? = some wk) (h : WorkerStep P s w fault wk s') (ht : s'.Unanswered t) :
    s'.Served t ↔ s.Served t := by
  have hok : wk.phase ≠ .starting → wk.phase ≠ .exited → wk.startsOk = true := hacc.live hwk
  cases h with
  | startFailed hphase hfails =>
    exact served_exit hwk (by simp [Worker.view, Worker.live, hphase, hfails, WorkerPhase.pending?])
  | exit hphase =>
    exact served_exit hwk (by simp [Worker.view, Worker.live, hphase, WorkerPhase.pending?])
  | recvShutdown hphase hqueue =>
    have hstarts := hok (by simp [hphase]) (by simp [hphase])
    exact served_recvShutdown hwk (by simp [Worker.view, Worker.live, hphase, hstarts,
      WorkerPhase.pending?]) hqueue rfl (by simp [Worker.view, Worker.live, WorkerPhase.pending?]) rfl
  | recvTask hphase hqueue =>
    have hstarts := hok (by simp [hphase]) (by simp [hphase])
    exact served_recvTask hwk (by simp [Worker.view, Worker.live, hphase, hstarts,
      WorkerPhase.pending?]) hqueue rfl (by simp [Worker.view, Worker.live, hstarts,
      WorkerPhase.pending?]) rfl
  | started hphase | resolved hphase | resolveFailed hphase | element hphase | elementFailed hphase
  | elementsDone hphase | release hphase =>
    exact served_congr (map_set_of_eq hwk (by simp [Worker.view, Worker.live, hphase,
      WorkerPhase.pending?])) (.inl rfl)
  | @finish t₀ result call hphase hcall =>
    have hstarts := hok (by simp [hphase]) (by simp [hphase])
    refine served_finish t₀ hwk (by simp [Worker.view, Worker.live, hphase, hstarts,
      WorkerPhase.pending?]) rfl (by simp [Worker.view, Worker.live, hstarts, WorkerPhase.pending?])
      rfl ?_
    -- the slot of `t₀` is filled
    rintro rfl
    obtain ⟨call', ⟨hcall', -, hslot⟩, hnone⟩ := ht
    rw [Pool.setPhase_calls, Pool.setCall_calls] at hcall'
    cases getElem?_set_self_some hcall hcall'
    rw [List.length_set] at hslot
    rw [List.getElem?_set_self hslot] at hnone
    cases hnone

/-- Who serves a task changes only when it is sent. -/
theorem served_of_step (hacc : Accounted s) (hs : P.step s a = some s') (hcrash : a.isCrash = false)
    (ht : s'.Unanswered t) : s'.Served t ↔
      s.Served t ∨ Sends s t a ∧ s.shutdownsBefore s.queue.length < s.liveCount := by
  cases a with
  | execute names sysPath array addr =>
    rw [Sends, false_and, or_false]
    obtain ⟨-, rfl | ⟨d, zero, input, rfl⟩⟩ := begin_cases hs <;> rfl
  | call c =>
    obtain ⟨call, hcall, hstep⟩ := stepCall_cases hs
    rcases hstep.channel hcall with ⟨hqueue, hnot⟩ | ⟨t', hsends, hqueue, -⟩
    · rw [served_congr (congrArg _ hstep.workers) (.inl hqueue)]
      simp [hnot t]
    · rw [served_append _ hstep.workers hqueue]
      refine or_congr_right (and_congr_left fun _ => ⟨?_, fun h => ?_⟩)
      · rintro ⟨⟩
        exact hsends
      · rw [h.unique hsends]
  | worker w fault =>
    rw [Sends, false_and, or_false]
    obtain ⟨wk, hwk, hstep⟩ := stepWorker_cases hs
    exact hstep.served hacc hwk ht
  | shutdownWorkers =>
    rw [Sends, false_and, or_false]
    cases hs
    rfl
  | shutdown k =>
    rw [Sends, false_and, or_false]
    cases stepShutdown_cases hs with
    | quiet => rfl
    | send =>
      refine Iff.trans (served_append (s := s) .shutdown rfl rfl) ?_
      simp
  | crash => cases hcrash

/-! ## Runs -/

theorem sendSafe_of_sends (h : SendSafe s a) (ht : Sends s t a) :
    s.shutdownsBefore s.queue.length < s.liveCount := by
  cases a with
  | call c =>
    obtain ⟨-, hconn, call, hcall, hphase, hslot, hchunk⟩ := ht
    refine h call hcall hphase ?_ hconn
    rw [hslot]
    exact (List.getElem?_eq_some_iff.mp hchunk).1
  | execute | worker | shutdownWorkers | shutdown | crash => exact ht.elim

theorem sendSafe_of_room (h : s.shutdownsBefore s.queue.length < s.liveCount) (a : PoolAction F) :
    SendSafe s a := by
  cases a with
  | call c => exact fun _ _ _ _ _ => h
  | execute | worker | shutdownWorkers | shutdown | crash => trivial

theorem Pool.NoOrphan.step (h : s.NoOrphan) (hacc : Accounted s) (hs : P.step s a = some s')
    (hcrash : a.isCrash = false) (hsafe : SendSafe s a) : s'.NoOrphan := by
  intro t ht
  rw [served_of_step hacc hs hcrash ht]
  rcases unanswered_of_step hs ht with hold | hsends
  · exact .inl (h t hold)
  · exact .inr ⟨hsends, sendSafe_of_sends hsafe hsends⟩

/-- The task of an unsafe send is an orphan. -/
theorem sendSafe_of_noOrphan (hacc : Accounted s) (hs : P.step s a = some s') (h : s'.NoOrphan) :
    SendSafe s a := by
  cases a with
  | call c =>
    intro call hcall hphase hmore hconn
    obtain ⟨⟨start, len⟩, hchunk⟩ : ∃ p, call.chunks[call.done.length]? = some p :=
      ⟨_, List.getElem?_eq_getElem hmore⟩
    have hsends : Sends s ⟨c, call.done.length, start, len⟩ (.call c) :=
      ⟨rfl, hconn, call, hcall, hphase, rfl, hchunk⟩
    have hnew := hsends.unanswered hs
    rcases (served_of_step hacc hs rfl hnew).mp (h _ hnew) with hold | ⟨-, hlt⟩
    · obtain ⟨call', hat⟩ := hacc.held _ hold.holds
      exact absurd hat (hsends.not_taskAt call')
    · exact hlt
  | execute | worker | shutdownWorkers | shutdown | crash => trivial

/-- **No task is orphaned** in a run whose sends are safe, and a further step keeps this up
only if it is safe as well. -/
theorem no_orphaned_task {sysPath : List String} {starts : List Bool} {as : List (PoolAction F)}
    (h : Run P.step (fun s a => a.isCrash = false ∧ SendSafe s a) (Pool.init sysPath starts) as s) :
    s.NoOrphan ∧ ∀ a s', a.isCrash = false → P.step s a = some s' → (s'.NoOrphan ↔ SendSafe s a) := by
  have hacc : Accounted s := accounted_of_reachable h.reachable
  have hno : s.NoOrphan := by
    refine (h.invariant (I := fun s => Accounted s ∧ s.NoOrphan)
      ⟨.init sysPath starts, Pool.noOrphan_init sysPath starts⟩ ?_).2
    intro s s' a hI hok hs
    exact ⟨hI.1.step hs, hI.2.step hI.1 hs hok.1 hok.2⟩
  exact ⟨hno, fun a s' hcrash hs => ⟨sendSafe_of_noOrphan hacc hs, hno.step hacc hs hcrash⟩⟩

/-- An orphan stays one, whoever goes on. -/
theorem orphan_stays {init : Pool F M Fn} {bs : List (PoolAction F)} (hacc : Accounted init)
    (ht : init.Unanswered t) (hn : ¬ init.Served t)
    (h : Run P.step (fun _ a => a.isCrash = false) init bs s) :
    s.Unanswered t ∧ ¬ s.Served t := by
  refine (h.invariant (I := fun s => Accounted s ∧ s.Unanswered t ∧ ¬ s.Served t)
    ⟨hacc, ht, hn⟩ ?_).2
  rintro s s' a ⟨hacc, ht, hn⟩ hcrash hs
  have ht' := unanswered_stays hacc ht (fun ha => hn (hacc.served_of_answers ha)) hs
  refine ⟨hacc.step hs, ht', fun hserved => ?_⟩
  rcases (served_of_step hacc hs hcrash ht').mp hserved with hold | ⟨hsends, -⟩
  · exact hn hold
  · obtain ⟨call, hat, -⟩ := ht
    exact hsends.not_taskAt call hat

end Steps

/-! ## Two runs -/

/-- The run of two calls with a shutdown in between, and a worker that fails to start. -/
theorem no_orphaned_task_demo : ∃ s : DemoPool,
    Run demoWorld.step (fun s a => a.isCrash = false ∧ SendSafe s a) (Pool.init [] [true, false, true])
      [callAt "double" 4096, .call 0, .shutdownWorkers, .shutdown 0, .worker 1 none,
        callAt "inc" 8192, .call 1, .worker 0 none, .worker 0 none, .worker 2 none,
        .worker 2 none] s ∧ s.NoOrphan := by
  obtain ⟨s, hs⟩ : ∃ s : DemoPool, Run demoWorld.step (fun s a =>
      a.isCrash = false ∧ s.shutdownsBefore s.queue.length < s.liveCount)
      (Pool.init [] [true, false, true])
      [callAt "double" 4096, .call 0, .shutdownWorkers, .shutdown 0, .worker 1 none,
        callAt "inc" 8192, .call 1, .worker 0 none, .worker 0 none, .worker 2 none,
        .worker 2 none] s := ⟨_, run_of_exec rfl⟩
  have hsafe : ∀ (s : DemoPool) a, a.isCrash = false ∧ s.shutdownsBefore s.queue.length < s.liveCount →
      a.isCrash = false ∧ SendSafe s a := fun s a h => ⟨h.1, sendSafe_of_room h.2 a⟩
  have hrun := hs.mono hsafe
  exact ⟨s, hrun, (no_orphaned_task hrun).1⟩

/-- The only worker leaves with a task behind it in the channel, and the call waits. -/
theorem orphaned_behind_shutdown : ∃ s : DemoPool,
    Run demoWorld.step (fun _ a => a.isCrash = false) (Pool.init [] [true])
      [.shutdownWorkers, .shutdown 0, callAt "double" 4096, .call 0, .call 0, .worker 0 none,
        .worker 0 none, .worker 0 none] s ∧ ¬ s.NoOrphan := by
  refine ⟨_, run_of_exec rfl, fun h => ?_⟩
  rcases h ⟨0, 0, 0, 1⟩ ⟨_, ⟨rfl, rfl, Nat.zero_lt_one⟩, rfl⟩ with ⟨wk, hwk, hlive, -⟩ | ⟨i, hi, -⟩
  · cases List.mem_singleton.mp hwk
    cases hlive
  · cases hi

end Gilmap
