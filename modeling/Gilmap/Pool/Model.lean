import Gilmap.Dispatch.ChunkSize
import Gilmap.Library.ListUpdate
import Gilmap.Library.Transition
import Gilmap.Pool.PerElement

/-! # The sub-interpreter pool

`execute`, the workers and `shutdown_workers` of `src/lib.rs` as threads over one bounded
channel. Each of them takes its steps in the order of the source; the actions of a run say
whose step is next. A channel is a FIFO; a send fails once every receiver is dropped, and
the messages left behind are then discarded.
-/
namespace Gilmap
open Library
variable {F M Fn Obj : Type}

/-! ## The interpreters -/

/-- Python as the pool uses it: what a worker's interpreter finds on a `sys.path`, and what
its objects do. -/
structure PyWorld (F M Fn Obj : Type) extends PyObjects F Fn Obj where
  fl : FloatOps F
  /-- a first import by the worker, which runs the module -/
  findModule : ℕ → List String → String → Except String M
  getattr : M → String → Except String Fn
  /-- `sys_path_id`, below `u64::MAX` unless the hash hits it -/
  sysPathId : List String → ℕ

/-- `sys.path` and `sys.modules`. -/
structure Interp (M : Type) where
  sysPath : List String
  modules : List (String × M)

/-- The module and function names of a call. -/
abbrev Names := String × String

/-- `import(module_name)` followed by `getattr(func_name)`. -/
def PyWorld.resolve (P : PyWorld F M Fn Obj) (w : ℕ) (interp : Interp M) (names : Names) :
    Except String Fn × Interp M :=
  match interp.modules.lookup names.1 with
  | some m => (P.getattr m names.2, interp)
  | none =>
    match P.findModule w interp.sysPath names.1 with
    | .error e => (.error e, interp)
    | .ok m => (P.getattr m names.2, { interp with modules := (names.1, m) :: interp.modules })

/-! ## Calls and messages -/

structure CallContext where
  moduleName : String
  funcName : String
  sysPath : List String
  sysPathId : ℕ
  deriving DecidableEq, Repr

def CallContext.names (ctx : CallContext) : Names := (ctx.moduleName, ctx.funcName)

/-- A chunk of the call `call`: `len` elements from `start` on, answered in its done slot. -/
structure Task where
  call : ℕ
  slot : ℕ
  start : ℕ
  len : ℕ
  deriving DecidableEq, Repr

inductive WorkerMessage
  | task (task : Task)
  | shutdown
  deriving DecidableEq, Repr

abbrev TaskResult := Except String Unit

/-- Where `execute` is: in its send loop, in `wait_for_tasks` or back at its caller. -/
inductive CallPhase (α : Type)
  | sending
  | waiting (next : ℕ) (firstError : Option String)
  | returned (result : Except String α)

/-- A run of `execute`. -/
structure Call (F : Type) where
  ctx : CallContext
  /-- the address of the context -/
  addr : ℕ
  dtype : Dtype
  input : List (Elem F dtype)
  chunks : List (ℕ × ℕ)
  results : List (Elem F dtype)
  /-- one slot for each chunk sent; a slot is not read again once it is waited for -/
  done : List (Option TaskResult)
  phase : CallPhase (List (Elem F dtype))

inductive ArrowArray (F : Type)
  | int64 (values : List (BitVec 64))
  | float64 (values : List F)
  | other (typeName : String)

def dtypeError : String := "gilmap currently only supports arrays of int64 or float64."
def sendError : String := "Worker thread panicked or died"
def workerError (e : String) : String := s!"Python error in worker thread: {e}"

/-- The part of `execute` before its send loop. -/
def Call.begin (numThreads : ℕ) (ctx : CallContext) (addr : ℕ) (d : Dtype) (zero : Elem F d)
    (input : List (Elem F d)) : Call F where
  ctx := ctx
  addr := addr
  dtype := d
  input := input
  chunks := (sliceChunks (pickChunkSize input.length numThreads) (input.length + 1) 0
    input.length).getD []
  results := List.replicate input.length zero
  done := []
  phase := .sending

def Call.returned (c : Call F) : Bool :=
  match c.phase with
  | .returned _ => true
  | .sending | .waiting _ _ => false

/-- The end of `wait_for_tasks`, and what `execute` makes of it. -/
def waitResult {α : Type} (firstError : Option String) (results : α) : Except String α :=
  match firstError with
  | some err => .error err
  | none => .ok results

/-! ## Workers -/

/-- What a worker keeps between tasks. -/
structure WorkerCache (M Fn : Type) where
  interp : Interp M
  funcCache : List (Names × Fn)
  pathSet : List String
  lastCtxPtr : ℕ
  lastFunc : Option Fn
  lastSysPathId : ℕ
  /-- not in the source: the names of the context that `last_ctx_ptr` pointed to -/
  lastNames : Option Names

def WorkerCache.init (sysPath : List String) : WorkerCache M Fn :=
  ⟨⟨sysPath, []⟩, [], [], 0, none, 2 ^ 64 - 1, none⟩

/-- The loop over `ctx.sys_path`; `fault` is an exception after that many new entries. -/
def WorkerCache.appendPaths : Option (ℕ × String) → List String → WorkerCache M Fn →
    Except String Unit × WorkerCache M Fn
  | _, [], k => (.ok (), k)
  | fault, p :: ps, k =>
    if p ∈ k.pathSet then appendPaths fault ps k
    else
      match fault with
      | some (0, e) => (.error e, k)
      | _ =>
        let interp := if p ∈ k.interp.sysPath then k.interp
          else { k.interp with sysPath := k.interp.sysPath ++ [p] }
        appendPaths (fault.map fun (n, e) => (n - 1, e)) ps
          { k with interp := interp, pathSet := p :: k.pathSet }

/-- `sys.path` is only looked at if the call brought another one than the last call. -/
def WorkerCache.patchPath (fault : Option (ℕ × String)) (ctx : CallContext) (k : WorkerCache M Fn) :
    Except String Unit × WorkerCache M Fn :=
  if ctx.sysPathId = k.lastSysPathId then (.ok (), k)
  else
    match k.appendPaths fault ctx.sysPath with
    | (.error e, k) => (.error e, k)
    | (.ok (), k) => (.ok (), { k with lastSysPathId := ctx.sysPathId })

/-- `last_ctx_ptr = ctx_ptr; last_func = Some(func)` -/
def WorkerCache.remember (k : WorkerCache M Fn) (ctx : CallContext) (ctxPtr : ℕ) (func : Fn) :
    WorkerCache M Fn :=
  { k with lastCtxPtr := ctxPtr, lastFunc := some func, lastNames := some ctx.names }

/-- The function that the pointer comparison selects, if any. -/
def WorkerCache.shortcut (k : WorkerCache M Fn) (ctxPtr : ℕ) : Option Fn :=
  if ctxPtr = k.lastCtxPtr then k.lastFunc else none

/-- The choice of `func_obj` for a task. -/
def PyWorld.lookup (P : PyWorld F M Fn Obj) (w : ℕ) (fault : Option (ℕ × String)) (ctx : CallContext)
    (ctxPtr : ℕ) (k : WorkerCache M Fn) : Except String Fn × WorkerCache M Fn :=
  match k.shortcut ctxPtr with
  | some func => (.ok func, k)
  | none =>
    match k.funcCache.lookup ctx.names with
    | some func => (.ok func, k.remember ctx ctxPtr func)
    | none =>
      match k.patchPath fault ctx with
      | (.error e, k) => (.error e, k)
      | (.ok (), k) =>
        match P.resolve w k.interp ctx.names with
        | (.error e, interp) => (.error e, { k with interp := interp })
        | (.ok func, interp) =>
          (.ok func, ({ k with
            interp := interp
            funcCache := (ctx.names, func) :: k.funcCache } : WorkerCache M Fn).remember ctx ctxPtr func)

/-- Where a worker thread is. -/
inductive WorkerPhase (Fn : Type)
  | starting
  /-- in `recv` -/
  | idle
  | resolving (task : Task)
  | running (task : Task) (func : Fn) (next : ℕ)
  | finishing (task : Task) (result : TaskResult)
  /-- the slot is filled, the task not yet dropped -/
  | releasing (task : Task)
  /-- behind the loop, with the receiver not yet dropped -/
  | exiting
  | exited

structure Worker (M Fn : Type) where
  /-- whether `Py_NewInterpreterFromConfig` succeeds -/
  startsOk : Bool
  phase : WorkerPhase Fn
  cache : WorkerCache M Fn

/-- The task that a worker has not dropped yet. -/
def WorkerPhase.task? : WorkerPhase Fn → Option Task
  | .resolving t | .running t _ _ | .finishing t _ | .releasing t => some t
  | .starting | .idle | .exiting | .exited => none

def WorkerPhase.isExited : WorkerPhase Fn → Bool
  | .exited => true
  | _ => false

/-! ## The pool -/

/-- Where `shutdown_workers` is. -/
inductive ShutdownPhase
  | sending (sent : ℕ)
  | joining (next : ℕ)
  | done
  deriving DecidableEq, Repr

structure Pool (F M Fn : Type) where
  workers : List (Worker M Fn)
  queue : List WorkerMessage
  calls : List (Call F)
  shutdowns : List ShutdownPhase

/-- The pool that `init_worker_pool` builds; `starts` says which workers will start. -/
def Pool.init (sysPath : List String) (starts : List Bool) : Pool F M Fn :=
  ⟨starts.map fun ok => ⟨ok, .starting, .init sysPath⟩, [], [], []⟩

namespace Pool
variable (s : Pool F M Fn)

def queueCap : ℕ := s.workers.length * chunksPerWorker * 2

/-- Every receiver is dropped. -/
def disconnected : Bool := s.workers.all (·.phase.isExited)

def setCall (c : ℕ) (call : Call F) : Pool F M Fn := { s with calls := s.calls.set c call }

def setWorker (w : ℕ) (wk : Worker M Fn) : Pool F M Fn := { s with workers := s.workers.set w wk }

def setPhase (w : ℕ) (wk : Worker M Fn) (phase : WorkerPhase Fn) : Pool F M Fn :=
  s.setWorker w { wk with phase := phase }

/-- The worker drops its receiver. -/
def exit (w : ℕ) (wk : Worker M Fn) : Pool F M Fn :=
  let s' := s.setPhase w wk .exited
  if s'.disconnected then { s' with queue := [] } else s'

/-- Some `Arc` of the call's context is alive. -/
def ctxAlive (c : ℕ) : Bool :=
  (match s.calls[c]? with
    | some call => !call.returned
    | none => false) ||
  s.queue.any (fun
    | .task t => t.call = c
    | .shutdown => false) ||
  s.workers.any (fun wk => wk.phase.task?.any (·.call = c))

/-- An address that the allocator may return. -/
def addrFree (addr : ℕ) : Bool :=
  addr ≠ 0 ∧ (s.calls.zipIdx.all fun (call, c) => call.addr ≠ addr || !s.ctxAlive c)

variable (P : PyWorld F M Fn Obj)

/-- `execute` up to its first send. -/
def begin (names : Names) (sysPath : List String) (array : ArrowArray F) (addr : ℕ) :
    Option (Pool F M Fn) :=
  let ctx : CallContext := ⟨names.1, names.2, sysPath, P.sysPathId sysPath⟩
  if s.addrFree addr then
    match array with
    | .int64 values =>
      some { s with calls := s.calls ++ [.begin s.workers.length ctx addr .i64 0 values] }
    | .float64 values =>
      some { s with calls := s.calls ++ [.begin s.workers.length ctx addr .f64 P.fl.zero values] }
    -- `dtypeError`, with nothing sent
    | .other _ => some s
  else none

/-- The next step of the call `c`. -/
def stepCall (c : ℕ) : Option (Pool F M Fn) := do
  let call ← s.calls[c]?
  match call.phase with
  | .sending =>
    match call.chunks[call.done.length]? with
    | none => some (s.setCall c { call with phase := .waiting 0 none })
    | some (start, len) =>
      if s.disconnected then
        some (s.setCall c { call with phase := .returned (.error sendError) })
      else if s.queue.length < s.queueCap then
        some { s.setCall c { call with done := call.done ++ [none] } with
          queue := s.queue ++ [.task ⟨c, call.done.length, start, len⟩] }
      else none
  | .waiting next firstError =>
    match call.done[next]? with
    | none =>
      some (s.setCall c { call with phase := .returned (waitResult firstError call.results) })
    | some none => none
    | some (some (.ok ())) => some (s.setCall c { call with phase := .waiting (next + 1) firstError })
    | some (some (.error err)) =>
      some (s.setCall c { call with phase := .waiting (next + 1) (some (firstError.getD err)) })
  | .returned _ => none

/-- The next step of the worker `w`; `fault` may hit it while it patches `sys.path`. -/
def stepWorker (w : ℕ) (fault : Option (ℕ × String)) : Option (Pool F M Fn) := do
  let wk ← s.workers[w]?
  match wk.phase with
  | .starting => some (if wk.startsOk then s.setPhase w wk .idle else s.exit w wk)
  | .idle =>
    match s.queue with
    | [] => none
    | .shutdown :: rest =>
      some ({ s with queue := rest }.setWorker w
        { wk with phase := .exiting, cache := { wk.cache with funcCache := [] } })
    | .task t :: rest => some ({ s with queue := rest }.setPhase w wk (.resolving t))
  | .resolving t => do
    let call ← s.calls[t.call]?
    match P.lookup w fault call.ctx call.addr wk.cache with
    | (.ok func, cache) => some (s.setWorker w { wk with phase := .running t func 0, cache := cache })
    | (.error e, cache) =>
      some (s.setWorker w { wk with phase := .finishing t (.error (workerError e)), cache := cache })
  | .running t func next => do
    let call ← s.calls[t.call]?
    if next < t.len then do
      let val ← call.input[t.start + next]?
      match perElement P.fl P.toPyObjects call.dtype func val with
      | .ok res =>
        some ((s.setCall t.call { call with results := call.results.set (t.start + next) res }).setPhase
          w wk (.running t func (next + 1)))
      | .error e => some (s.setPhase w wk (.finishing t (.error (workerError e))))
    else some (s.setPhase w wk (.finishing t (.ok ())))
  | .finishing t result => do
    let call ← s.calls[t.call]?
    some ((s.setCall t.call { call with done := call.done.set t.slot (some result) }).setPhase w wk
      (.releasing t))
  | .releasing _ => some (s.setPhase w wk .idle)
  | .exiting => some (s.exit w wk)
  | .exited => none

/-- The next step of the `k`th run of `shutdown_workers`. -/
def stepShutdown (k : ℕ) : Option (Pool F M Fn) := do
  match ← s.shutdowns[k]? with
  | .sending sent =>
    if sent < s.workers.length then
      if s.disconnected then some { s with shutdowns := s.shutdowns.set k (.sending (sent + 1)) }
      else if s.queue.length < s.queueCap then
        some { s with
          shutdowns := s.shutdowns.set k (.sending (sent + 1))
          queue := s.queue ++ [.shutdown] }
      else none
    else some { s with shutdowns := s.shutdowns.set k (.joining 0) }
  | .joining next =>
    match s.workers[next]? with
    | none => some { s with shutdowns := s.shutdowns.set k .done }
    | some wk =>
      if wk.phase.isExited then some { s with shutdowns := s.shutdowns.set k (.joining (next + 1)) }
      else none
  | .done => none

/-- A panic unwinds the worker in the middle of a task. -/
def crash (w : ℕ) : Option (Pool F M Fn) := do
  let wk ← s.workers[w]?
  match wk.phase with
  | .resolving _ | .running _ _ _ | .finishing _ _ => some (s.exit w wk)
  | _ => none

end Pool

/-- Who takes the next step. -/
inductive PoolAction (F : Type)
  | execute (names : Names) (sysPath : List String) (array : ArrowArray F) (addr : ℕ)
  | call (c : ℕ)
  | worker (w : ℕ) (fault : Option (ℕ × String))
  | shutdownWorkers
  | shutdown (k : ℕ)
  | crash (w : ℕ)

def PyWorld.step (P : PyWorld F M Fn Obj) (s : Pool F M Fn) : PoolAction F → Option (Pool F M Fn)
  | .execute names sysPath array addr => s.begin P names sysPath array addr
  | .call c => s.stepCall c
  | .worker w fault => s.stepWorker P w fault
  | .shutdownWorkers => some { s with shutdowns := s.shutdowns ++ [.sending 0] }
  | .shutdown k => s.stepShutdown k
  | .crash w => s.crash w

end Gilmap
