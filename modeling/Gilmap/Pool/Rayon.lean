import Gilmap.Pool.Progress

/-! # The executor of the free-threaded build

`run_chunks` of `src/rayon_pool.rs`: a rayon scope spawns a task for each chunk and waits for
all of them; the first task to fail leaves its error behind. Whatever the schedules and the
chunks, it succeeds where the sub-interpreter pool does, with the same array.
-/
namespace Gilmap
open Library
variable {F M Fn Obj : Type}

def rayonError (e : String) : String := s!"Python error in rayon worker: {e}"

/-- Where a spawned task is. -/
inductive RayonPhase
  | spawned
  | running (next : ℕ)
  /-- with an exception and about to lock `first_err` -/
  | failed (e : String)
  | done
  deriving DecidableEq, Repr

structure RayonTask where
  start : ℕ
  len : ℕ
  phase : RayonPhase
  deriving DecidableEq, Repr

/-- A run of `run_chunks`. -/
structure Scope (F : Type) (d : Dtype) where
  input : List (Elem F d)
  output : List (Elem F d)
  /-- the chunks not spawned yet -/
  chunks : List (ℕ × ℕ)
  tasks : List RayonTask
  firstErr : Option String

def Scope.init {d : Dtype} (zero : Elem F d) (chunkSize : ℕ) (input : List (Elem F d)) : Scope F d where
  input := input
  output := List.replicate input.length zero
  chunks := if input.isEmpty then []
    else (sliceChunks chunkSize (input.length + 1) 0 input.length).getD []
  tasks := []
  firstErr := none

inductive RayonAction
  | spawn
  | task (k : ℕ)
  deriving DecidableEq, Repr

section Scope
variable {d : Dtype} (fl : FloatOps F) (O : PyObjects F Fn Obj) (func : Fn)

def Scope.setTask (s : Scope F d) (k : ℕ) (task : RayonTask) (phase : RayonPhase) : Scope F d :=
  { s with tasks := s.tasks.set k { task with phase := phase } }

def Scope.step (s : Scope F d) : RayonAction → Option (Scope F d)
  | .spawn =>
    match s.chunks with
    | [] => none
    | (start, len) :: rest =>
      some { s with chunks := rest, tasks := s.tasks ++ [⟨start, len, .spawned⟩] }
  | .task k => do
    let task ← s.tasks[k]?
    match task.phase with
    | .spawned => some (s.setTask k task (.running 0))
    | .running next =>
      if next < task.len then do
        let val ← s.input[task.start + next]?
        match perElement fl O d func val with
        | .ok res =>
          some ({ s with output := s.output.set (task.start + next) res }.setTask k task
            (.running (next + 1)))
        | .error e => some (s.setTask k task (.failed e))
      else some (s.setTask k task .done)
    | .failed e =>
      some ({ s with firstErr := some (s.firstErr.getD (rayonError e)) }.setTask k task .done)
    | .done => none

/-- The scope returns when all tasks are spawned and done. -/
def Scope.result (s : Scope F d) : Option (Except String (List (Elem F d))) :=
  if s.chunks = [] ∧ s.tasks.all (·.phase = .done) then
    some (match s.firstErr with
      | some e => .error e
      | none => .ok s.output)
  else none

end Scope

/-! ## Sequential loops that fail -/

section MapM
variable {α β ε : Type} {f : α → Except ε β} {xs : List α}

theorem mapM_ok_at {ys : List β} (h : xs.mapM f = .ok ys) {i : ℕ} {x : α} (hx : xs[i]? = some x) :
    ∃ y, f x = .ok y := by
  cases hf : f x with
  | ok y => exact ⟨y, rfl⟩
  | error e =>
    exfalso
    induction xs generalizing i ys with
    | nil => cases hx
    | cons a xs ih =>
      rw [List.mapM_cons] at h
      obtain ⟨b, hb, h⟩ := Except.bind_eq_ok.mp h
      obtain ⟨bs, hbs, -⟩ := Except.bind_eq_ok.mp h
      cases i with
      | zero =>
        cases hx
        rw [hf] at hb
        cases hb
      | succ i => exact ih hbs (by simpa using hx)

theorem mapM_error_at {e : ε} (h : xs.mapM f = .error e) : ∃ (i : ℕ) (x : α), xs[i]? = some x ∧ f x = .error e ∧
    ∀ j < i, ∃ a b, xs[j]? = some a ∧ f a = .ok b := by
  induction xs with
  | nil => cases h
  | cons a xs ih =>
    rw [List.mapM_cons] at h
    cases hf : f a with
    | error e' =>
      rw [hf] at h
      cases h
      exact ⟨0, a, rfl, hf, fun j hj => absurd hj (Nat.not_lt_zero j)⟩
    | ok b =>
      rw [hf] at h
      cases hrest : xs.mapM f with
      | error e' =>
        rw [hrest] at h
        cases h
        obtain ⟨i, x, hx, hfx, hbefore⟩ := ih hrest
        refine ⟨i + 1, x, hx, hfx, fun j hj => ?_⟩
        cases j with
        | zero => exact ⟨a, b, rfl, hf⟩
        | succ j => exact hbefore j (by omega)
      | ok bs =>
        rw [hrest] at h
        cases h

end MapM

/-! ## What the tasks of a scope have done -/

section Spec
variable {d : Dtype}

/-- `e` is the exception of the first failing element of the chunk. -/
def FirstFailure (f : Elem F d → Except String (Elem F d)) (input : List (Elem F d)) (start len : ℕ)
    (e : String) : Prop :=
  ∃ j < len, (∀ i < j, ∃ val res, input[start + i]? = some val ∧ f val = .ok res) ∧
    ∃ val, input[start + j]? = some val ∧ f val = .error e

/-- The output `i` holds the function's value. -/
def Wrote (f : Elem F d → Except String (Elem F d)) (s : Scope F d) (i : ℕ) : Prop :=
  ∃ val res, s.input[i]? = some val ∧ f val = .ok res ∧ s.output[i]? = some res

def RayonTask.Ok (f : Elem F d → Except String (Elem F d)) (s : Scope F d) (task : RayonTask) : Prop :=
  match task.phase with
  | .spawned => True
  | .running next => ∀ j < next, Wrote f s (task.start + j)
  | .failed e => FirstFailure f s.input task.start task.len e
  | .done => (∀ j < task.len, Wrote f s (task.start + j)) ∨ s.firstErr.isSome

structure ScopeOk (f : Elem F d → Except String (Elem F d)) (s : Scope F d) : Prop where
  lengths : s.output.length = s.input.length
  tiles : Tiles s.input.length 0 (s.tasks.map (fun task => (task.start, task.len)) ++ s.chunks)
  tasks : ∀ (k : ℕ) task, s.tasks[k]? = some task → task.Ok f s
  first : ∀ msg, s.firstErr = some msg →
    ∃ task ∈ s.tasks, ∃ e, FirstFailure f s.input task.start task.len e ∧ msg = rayonError e

variable {fl : FloatOps F} {O : PyObjects F Fn Obj} {func : Fn} {f : Elem F d → Except String (Elem F d)}
  {s s' : Scope F d} {k : ℕ} {task : RayonTask}

theorem RayonTask.Ok.mono (h : task.Ok f s) (hinput : s'.input = s.input)
    (hwrote : ∀ i, Wrote f s i → Wrote f s' i) (hfirst : s.firstErr.isSome → s'.firstErr.isSome) :
    task.Ok f s' := by
  unfold RayonTask.Ok at h ⊢
  cases hphase : task.phase with
  | spawned => trivial
  | running next =>
    rw [hphase] at h
    exact fun j hj => hwrote _ (h j hj)
  | failed e =>
    rw [hphase] at h
    rw [hinput]
    exact h
  | done =>
    rw [hphase] at h
    exact h.imp (fun hall j hj => hwrote _ (hall j hj)) hfirst

/-- A task takes a step. -/
theorem ScopeOk.setTask (h : ScopeOk f s) (hk : s.tasks[k]? = some task) {output : List (Elem F d)}
    {firstErr : Option String} {phase : RayonPhase}
    (hlen : output.length = s.output.length)
    (hwrote : ∀ i, Wrote f s i → Wrote f { s with output := output, firstErr := firstErr } i)
    (hfirst : s.firstErr.isSome → firstErr.isSome)
    (hmsg : ∀ msg, firstErr = some msg → s.firstErr = some msg ∨
      ∃ e, FirstFailure f s.input task.start task.len e ∧ msg = rayonError e)
    (hok : ({ task with phase := phase } : RayonTask).Ok f
      { s with output := output, firstErr := firstErr }) :
    ScopeOk f ({ s with output := output, firstErr := firstErr }.setTask k task phase) := by
  have hmem : ∀ x ∈ s.tasks, ∃ y ∈ s.tasks.set k { task with phase := phase },
      y.start = x.start ∧ y.len = x.len := by
    intro x hx
    obtain ⟨j, hj⟩ := List.mem_iff_getElem?.mp hx
    by_cases hkj : k = j
    · subst hkj
      rw [hk] at hj
      cases hj
      exact ⟨_, List.mem_of_getElem? ((getElem?_set_some hk).trans (if_pos rfl)), rfl, rfl⟩
    · exact ⟨x, List.mem_of_getElem? ((getElem?_set_some hk).trans (by rwa [if_neg hkj])), rfl, rfl⟩
  refine ⟨hlen.trans h.lengths, ?_, fun j x hx => ?_, fun msg hm => ?_⟩
  · have hmap : (s.tasks.set k { task with phase := phase }).map (fun task => (task.start, task.len)) =
        s.tasks.map fun task => (task.start, task.len) := map_set_of_eq hk rfl
    change Tiles s.input.length 0 ((s.tasks.set k _).map _ ++ s.chunks)
    rw [hmap]
    exact h.tiles
  · rcases getElem?_set_cases hx with hold | rfl
    · exact (h.tasks j x hold).mono rfl hwrote hfirst
    · exact hok
  · rcases hmsg msg hm with hold | ⟨e, hfail, he⟩
    · obtain ⟨x, hx, e, hfail, he⟩ := h.first msg hold
      obtain ⟨y, hy, hstart, hlen⟩ := hmem x hx
      exact ⟨y, hy, e, by rw [hstart, hlen]; exact hfail, he⟩
    · exact ⟨_, List.mem_of_getElem? ((getElem?_set_some hk).trans (if_pos rfl)), e, hfail, he⟩

theorem Wrote.set (firstErr : Option String) {res : Elem F d} {i : ℕ} {val : Elem F d}
    (hlen : s.output.length = s.input.length) (hval : s.input[i]? = some val) (hf : f val = .ok res) :
    Wrote f { s with output := s.output.set i res, firstErr := firstErr } i ∧
      ∀ j, Wrote f s j → Wrote f { s with output := s.output.set i res, firstErr := firstErr } j := by
  have hlt : i < s.output.length := by
    rw [hlen]
    exact (List.getElem?_eq_some_iff.mp hval).1
  have hself : Wrote f { s with output := s.output.set i res, firstErr := firstErr } i :=
    ⟨val, res, hval, hf, by simp [hlt]⟩
  refine ⟨hself, fun j hj => ?_⟩
  by_cases hij : i = j
  · exact hij ▸ hself
  · obtain ⟨val', res', hval', hf', hres'⟩ := hj
    exact ⟨val', res', hval', hf', by simpa [List.getElem?_set_ne hij] using hres'⟩

theorem ScopeOk.step (hfunc : ∀ val, perElement fl O d func val = f val) (h : ScopeOk f s)
    {a : RayonAction} (hs : s.step fl O func a = some s') : ScopeOk f s' := by
  cases a with
  | spawn =>
    unfold Scope.step at hs
    dsimp only at hs
    split at hs
    · cases hs
    · rename_i start len rest hchunks
      cases hs
      refine ⟨h.lengths, ?_, fun k task hk => ?_, fun msg hm => ?_⟩
      · have htiles := h.tiles
        rw [hchunks] at htiles
        simpa using htiles
      · rcases getElem?_concat_cases hk with hold | rfl
        · exact (h.tasks k task hold).mono rfl (fun _ hw => hw) id
        · trivial
      · obtain ⟨x, hx, hrest⟩ := h.first msg hm
        exact ⟨x, List.mem_append_left _ hx, hrest⟩
  | task k =>
    obtain ⟨task, hk, hs⟩ := Option.bind_eq_some_iff.mp hs
    have hold := h.tasks k task hk
    unfold RayonTask.Ok at hold
    split at hs
    · cases hs
      exact h.setTask hk rfl (fun _ hw => hw) id (fun msg hm => .inl hm)
        fun j hj => absurd hj (Nat.not_lt_zero j)
    · rename_i next hphase
      rw [hphase] at hold
      split at hs
      · rename_i hlt
        obtain ⟨val, hval, hs⟩ := Option.bind_eq_some_iff.mp hs
        rw [hfunc] at hs
        split at hs
        · rename_i res hres
          cases hs
          obtain ⟨hself, hkeep⟩ := Wrote.set s.firstErr h.lengths hval hres
          refine h.setTask hk (List.length_set ..) hkeep id (fun msg hm => .inl hm) fun j hj => ?_
          rcases Nat.lt_succ_iff_lt_or_eq.mp hj with hj | rfl
          · exact hkeep _ (hold j hj)
          · exact hself
        · rename_i e hres
          cases hs
          refine h.setTask hk rfl (fun _ hw => hw) id (fun msg hm => .inl hm) ?_
          refine ⟨next, hlt, fun i hi => ?_, val, hval, hres⟩
          obtain ⟨val', res, hval', hf, -⟩ := hold i hi
          exact ⟨val', res, hval', hf⟩
      · rename_i hge
        cases hs
        refine h.setTask hk rfl (fun _ hw => hw) id (fun msg hm => .inl hm) (.inl fun j hj => ?_)
        exact hold j (by simp only at hj; omega)
    · rename_i e hphase
      rw [hphase] at hold
      cases hs
      refine h.setTask hk rfl (fun _ hw => hw) (fun _ => rfl) (fun msg hm => ?_) (.inr rfl)
      cases hfirst : s.firstErr with
      | some m =>
        rw [hfirst] at hm
        exact .inl hm
      | none =>
        rw [hfirst] at hm
        cases hm
        exact .inr ⟨e, hold, rfl⟩
    · cases hs

/-- What a scope that has returned says about its input. -/
theorem ScopeOk.result (h : ScopeOk f s) {r : Except String (List (Elem F d))}
    (hr : s.result = some r) : (∀ ys, r = .ok ys ↔ s.input.mapM f = .ok ys) ∧
      ∀ msg, r = .error msg →
        ∃ task ∈ s.tasks, ∃ e, FirstFailure f s.input task.start task.len e ∧ msg = rayonError e := by
  unfold Scope.result at hr
  split at hr
  · rename_i hend
    obtain ⟨hchunks, hdone⟩ := hend
    cases hr
    cases hfirst : s.firstErr with
    | some msg =>
      obtain ⟨task, hmem, e, hfail, rfl⟩ := h.first msg hfirst
      refine ⟨fun ys => iff_of_false nofun fun hok => ?_, fun msg' hm => ?_⟩
      · obtain ⟨j, -, -, val, hval, he⟩ := hfail
        obtain ⟨y, hy⟩ := mapM_ok_at hok hval
        rw [he] at hy
        cases hy
      · cases hm
        exact ⟨task, hmem, e, hfail, rfl⟩
    | none =>
      have hall : s.input.mapM f = .ok s.output := by
        apply mapM_eq_ok h.lengths
        intro i hi
        have htiles := h.tiles
        rw [hchunks, List.append_nil] at htiles
        obtain ⟨j, hj, q, hq, hle, hlt⟩ := htiles.covers (k := s.tasks.length) (Nat.zero_le i) (by
          rw [List.getElem?_eq_none (by simp)]
          exact hi)
        rw [List.getElem?_map] at hq
        obtain ⟨task, htask, rfl⟩ := Option.map_eq_some_iff.mp hq
        have hok := h.tasks j task htask
        have hphase : task.phase = .done := by
          simpa using List.all_eq_true.mp hdone task (List.mem_of_getElem? htask)
        unfold RayonTask.Ok at hok
        rw [hphase, hfirst] at hok
        rcases hok with hok | hsome
        · have hwrote := hok (i - task.start) (by omega)
          rwa [show task.start + (i - task.start) = i by omega] at hwrote
        · cases hsome
      refine ⟨fun ys => ?_, fun msg hm => nomatch hm⟩
      rw [hall]
  · cases hr

theorem ScopeOk.init (f : Elem F d → Except String (Elem F d)) {chunkSize : ℕ} (hsize : 0 < chunkSize)
    (zero : Elem F d) (input : List (Elem F d)) : ScopeOk f (.init zero chunkSize input) := by
  refine ⟨by simp [Scope.init], ?_, fun k task hk => by simp [Scope.init] at hk,
    fun msg hm => by simp [Scope.init] at hm⟩
  cases input with
  | nil => rfl
  | cons x xs =>
    obtain ⟨chunks, hchunks, htiles⟩ := sliceChunks_tiles hsize (Nat.zero_add (x :: xs).length)
      (Nat.lt_succ_self (x :: xs).length)
    simp only [Scope.init, List.isEmpty_cons, Bool.false_eq_true, if_false, hchunks, Option.getD_some]
    exact htiles

theorem Scope.step_input {a : RayonAction} (hs : s.step fl O func a = some s') :
    s'.input = s.input := by
  cases a with
  | spawn =>
    unfold Scope.step at hs
    dsimp only at hs
    split at hs <;> cases hs
    rfl
  | task k =>
    obtain ⟨task, hk, hs⟩ := Option.bind_eq_some_iff.mp hs
    split at hs
    · cases hs
      rfl
    · split at hs
      · obtain ⟨val, -, hs⟩ := Option.bind_eq_some_iff.mp hs
        split at hs <;> cases hs <;> rfl
      · cases hs
        rfl
    · cases hs
      rfl
    · cases hs

/-! ## How long a scope runs -/

def RayonTask.work (task : RayonTask) : ℕ :=
  match task.phase with
  | .spawned => task.len + 3
  | .running next => task.len - next + 2
  | .failed _ => 1
  | .done => 0

def Scope.work (s : Scope F d) : ℕ :=
  (s.chunks.map fun p => p.2 + 4).sum + (s.tasks.map RayonTask.work).sum

theorem Scope.work_lt {a : RayonAction} (hs : s.step fl O func a = some s') : s'.work < s.work := by
  have hset : ∀ {k task output firstErr phase}, s.tasks[k]? = some task →
      RayonTask.work { task with phase := phase } < task.work →
      ({ s with output := output, firstErr := firstErr }.setTask k task phase).work < s.work := by
    intro k task output firstErr phase hk hlt
    have hsum := sum_map_set (g := RayonTask.work) (b := { task with phase := phase }) hk
    simp only [Scope.work, Scope.setTask]
    omega
  cases a with
  | spawn =>
    unfold Scope.step at hs
    dsimp only at hs
    split at hs
    · cases hs
    · rename_i start len rest hchunks
      cases hs
      simp only [Scope.work, hchunks, List.map_cons, List.sum_cons, List.map_append, List.map_nil,
        List.sum_append, List.sum_nil, RayonTask.work]
      omega
  | task k =>
    obtain ⟨task, hk, hs⟩ := Option.bind_eq_some_iff.mp hs
    split at hs
    · rename_i hphase
      cases hs
      exact hset hk (by simp only [RayonTask.work, hphase]; omega)
    · rename_i next hphase
      split at hs
      · obtain ⟨val, -, hs⟩ := Option.bind_eq_some_iff.mp hs
        split at hs <;> cases hs <;> exact hset hk (by simp only [RayonTask.work, hphase]; omega)
      · cases hs
        exact hset hk (by simp only [RayonTask.work, hphase]; omega)
    · rename_i e hphase
      cases hs
      exact hset hk (by simp only [RayonTask.work, hphase]; omega)
    · cases hs

/-- A scope with a task or a chunk left can go on. -/
theorem ScopeOk.exists_step (h : ScopeOk f s) (hr : s.result = none) :
    ∃ a s', s.step fl O func a = some s' := by
  unfold Scope.result at hr
  split at hr
  · cases hr
  · rename_i hend
    by_cases hchunks : s.chunks = []
    · obtain ⟨task, hmem, hne⟩ : ∃ task ∈ s.tasks, task.phase ≠ .done := by
        by_contra hall
        refine hend ⟨hchunks, List.all_eq_true.mpr fun task hmem => ?_⟩
        by_contra hne
        exact hall ⟨task, hmem, by simpa using hne⟩
      obtain ⟨k, hk⟩ := List.mem_iff_getElem?.mp hmem
      refine ⟨.task k, ?_⟩
      simp only [Scope.step, hk, bind, Option.bind_some]
      cases hphase : task.phase with
      | spawned => exact ⟨_, rfl⟩
      | running next =>
        by_cases hlt : next < task.len
        · have hbound := (h.tiles.bounds (task.start, task.len) (List.mem_append_left _
            (List.mem_map.mpr ⟨task, hmem, rfl⟩))).2
          obtain ⟨val, hval⟩ : ∃ val, s.input[task.start + next]? = some val :=
            ⟨_, List.getElem?_eq_getElem (by simp only at hbound; omega)⟩
          simp only [if_pos hlt, hval, Option.bind_some]
          cases perElement fl O d func val <;> exact ⟨_, rfl⟩
        · simp only [if_neg hlt]
          exact ⟨_, rfl⟩
      | failed e => exact ⟨_, rfl⟩
      | done => exact absurd hphase hne
    · cases hc : s.chunks with
      | nil => exact absurd hc hchunks
      | cons p rest =>
        refine ⟨.spawn, ?_⟩
        simp only [Scope.step, hc]
        exact ⟨_, rfl⟩

end Spec

/-! ## The two executors -/

section Agree
variable {P : PyWorld F M Fn Obj} {f : PureFunctions F} {s : Pool F M Fn} {call : Call F}

/-- The error of a sequential loop is the first one of the chunk that it is in. -/
theorem Call.sequential_error (hshaped : call.Shaped) {msg : String}
    (h : call.sequential f = .error msg) : ∃ p ∈ call.chunks, ∃ e,
      FirstFailure (f call.ctx.names call.dtype) call.input p.1 p.2 e ∧ msg = workerError e := by
  unfold Call.sequential at h
  cases hmap : call.input.mapM (f call.ctx.names call.dtype) with
  | ok ys =>
    rw [hmap] at h
    cases h
  | error e =>
    rw [hmap] at h
    cases h
    obtain ⟨i, x, hx, hfx, hbefore⟩ := mapM_error_at hmap
    have hlt := (List.getElem?_eq_some_iff.mp hx).1
    obtain ⟨j, -, p, hp, hle, hi⟩ := hshaped.tiles.covers (k := call.chunks.length) (Nat.zero_le i) (by
      rw [List.getElem?_eq_none le_rfl]
      exact hlt)
    refine ⟨p, List.mem_of_getElem? hp, e, ⟨i - p.1, by omega, fun j hj => ?_, x, ?_, hfx⟩, rfl⟩
    · exact hbefore (p.1 + j) (by omega)
    · rwa [show p.1 + (i - p.1) = i by omega]

/-- **The two executors honour one contract.** Let a quiet run of the pool have answered a
call, and let `run_chunks` run on the same input, with chunks of any size and the same pure
function. It ends under every schedule, and whatever both return, they succeed with the same
array or fail with the exception of the first failing element of one of their chunks. -/
theorem executors_agree (hfl : P.fl.cmp .eq (minusOne P.fl .f64) (minusOne P.fl .f64) = true)
    {n : ℕ} (hn : 0 < n) {sysPath : List String} {as : List (PoolAction F)}
    (hrun : Run P.step (Quiet P f) (Pool.init sysPath (List.replicate n true)) as s)
    (hcall : call ∈ s.calls) {r : Except String (List (Elem F call.dtype))}
    (hret : call.phase = .returned r) {Fn' Obj' : Type} {O : PyObjects F Fn' Obj'} {func : Fn'}
    (hpure : ∀ val, pyCall O call.dtype func val = f call.ctx.names call.dtype val)
    {chunkSize : ℕ} (hsize : 0 < chunkSize) {zero : Elem F call.dtype} {bs : List RayonAction}
    {t : Scope F call.dtype}
    (hsched : Run (Scope.step P.fl O func) (fun _ _ => True) (.init zero chunkSize call.input) bs t) :
    bs.length ≤ (Scope.init zero chunkSize call.input).work ∧
      (t.result = none → ∃ a t', t.step P.fl O func a = some t') ∧
      ∀ r', t.result = some r' → (∀ ys, r = .ok ys ↔ r' = .ok ys) ∧
        (∀ msg, r = .error msg → ∃ p ∈ call.chunks, ∃ e,
          FirstFailure (f call.ctx.names call.dtype) call.input p.1 p.2 e ∧ msg = workerError e) ∧
        ∀ msg, r' = .error msg → ∃ task ∈ t.tasks, ∃ e,
          FirstFailure (f call.ctx.names call.dtype) call.input task.start task.len e ∧
            msg = rayonError e := by
  have hseq : r = call.sequential f := (execute_eq_sequential hfl hn hrun).1 call hcall r hret
  have hshaped : call.Shaped := by
    obtain ⟨c, hc⟩ := List.mem_iff_getElem?.mp hcall
    exact allShaped_of_reachable hrun.reachable c call hc
  have hfunc : ∀ val, perElement P.fl O call.dtype func val = f call.ctx.names call.dtype val :=
    fun val => (perElement_eq_pyCall hfl O call.dtype func val).trans (hpure val)
  obtain ⟨hok, hinput, hwork⟩ : ScopeOk (f call.ctx.names call.dtype) t ∧ t.input = call.input ∧
      bs.length + t.work ≤ (Scope.init zero chunkSize call.input).work := by
    refine hsched.induction (I := fun bs t => ScopeOk (f call.ctx.names call.dtype) t ∧
      t.input = call.input ∧ bs.length + t.work ≤ (Scope.init zero chunkSize call.input).work)
      ⟨.init _ hsize zero call.input, rfl, by simp⟩ ?_
    rintro bs t t' a - ⟨hok, hinput, hwork⟩ - ht
    refine ⟨hok.step hfunc ht, (Scope.step_input ht).trans hinput, ?_⟩
    have hlt := Scope.work_lt ht
    rw [List.length_append, List.length_singleton]
    omega
  refine ⟨by omega, fun hr => hok.exists_step hr, fun r' hr' => ?_⟩
  obtain ⟨hvalue, herror⟩ := hok.result hr'
  rw [hinput] at hvalue herror
  refine ⟨fun ys => ?_, fun msg hm => ?_, herror⟩
  · rw [hvalue, hseq, Call.sequential]
    cases call.input.mapM (f call.ctx.names call.dtype) <;> simp [Except.mapError]
  · rw [hseq] at hm
    exact Call.sequential_error hshaped hm

end Agree

/-- The last chunk is answered first by both. -/
theorem executors_agree_demo : ∃ s : DemoPool,
    Run bitWorld.step (Quiet bitWorld demoFunctions) (Pool.init [] (List.replicate 2 true)) demoRun s ∧
      ∃ call ∈ s.calls, ∃ r, call.phase = .returned r ∧ ∃ zero t,
        Run (Scope.step bitWorld.fl bitWorld.toPyObjects ("tasks", "inc")) (fun _ _ => True)
          (.init zero 1 call.input)
          [.spawn, .spawn, .task 1, .task 1, .task 1, .task 0, .task 0, .task 0] t ∧
        ∃ r', t.result = some r' ∧ ∀ ys, r = .ok ys ↔ r' = .ok ys := by
  obtain ⟨s, hs, call, hcall, hnames, r, hret, zero, t, ht, r', hr'⟩ : ∃ s : DemoPool,
      Run bitWorld.step FindsNamed (Pool.init [] (List.replicate 2 true)) demoRun s ∧
      ∃ call ∈ s.calls, call.ctx.names = ("tasks", "inc") ∧ ∃ r, call.phase = .returned r ∧ ∃ zero t,
        Run (Scope.step bitWorld.fl bitWorld.toPyObjects ("tasks", "inc")) (fun _ _ => True)
          (.init zero 1 call.input)
          [.spawn, .spawn, .task 1, .task 1, .task 1, .task 0, .task 0, .task 0] t ∧
        ∃ r', t.result = some r' :=
    ⟨_, run_of_exec rfl, _, List.mem_singleton.mpr rfl, rfl, _, rfl, (0 : BitVec 64), _,
      run_of_exec rfl, _, rfl⟩
  have hrun := hs.mono fun s a h => h.quiet
  have hagree := executors_agree (beq_self_eq_true _) (by decide) hrun hcall hret
    (fun val => by rw [hnames]; rfl) Nat.one_pos ht
  exact ⟨s, hrun, call, hcall, r, hret, zero, t, ht, r', hr', (hagree.2.2 r' hr').1⟩

end Gilmap
