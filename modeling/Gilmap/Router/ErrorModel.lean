import Gilmap.Dispatch.Parallel
import Gilmap.Python.HostFloats
import Gilmap.Router.LaneRouting

/-! # How a native map call ends

The closure `fast` of `_detect_jit`: the cast, the checks of `jit_apply`, and the threads
that `invoke_kernel_parallel` runs the kernel on. The ABI of a kernel has no way to report
an error, so behind the checks a call returns an array, kills the process, or never ends.
-/
namespace Gilmap
open Library
variable {F : Type}

/-! ## Ends of a call -/

inductive MapResult (F : Type)
  | raised (error : MapError)
  /-- an `Err` of `invoke_kernel_parallel`, as `PyRuntimeError` -/
  | runtimeError (message : String)
  | array (values : List (Val F))
  /-- a thread has executed a trapping instruction -/
  | trapped (f : Fault)
  /-- a thread has left the code of its kernel -/
  | ranOff
  | hangs

def MapResult.isException : MapResult F → Bool
  | .raised _ | .runtimeError _ => true
  | .array _ | .trapped _ | .ranOff | .hangs => false

/-- The values of the array and the zeros of the result in memory. -/
structure JitCall.Placed (call : JitCall F) (m : Mem F) (inPtr outPtr len : Addr) : Prop where
  buffers : Buffers m inPtr outPtr len (clType call.inDtype)
  values : elements m inPtr len = call.array.values

/-- `invoke_kernel_parallel` on the buffers of the call. -/
def JitCall.invoke (call : JitCall F) (fuel threads kernelHash : ℕ) (inPtr outPtr len : Addr) :
    Option (Except String (List (KernelCall F))) :=
  invokeKernelParallel fuel threads (some call.code) kernelHash call.inDtype call.outDtype inPtr
    outPtr len.toNat

/-- The threads of the call are about to start. -/
def JitCall.Starts (call : JitCall F) (fl : FloatOps F) (threads kernelHash : ℕ)
    (calls : List (KernelCall F)) (outPtr len : Addr)
    (start : System Addr (Val F) (Local F) (Fin calls.length)) : Prop :=
  ∃ m inPtr fuel, call.Placed m inPtr outPtr len ∧
    call.invoke fuel threads kernelHash inPtr outPtr len = some (.ok calls) ∧
    start = spawned fl calls m

/-- The rest of `jit_apply`, under every schedule of its threads. -/
inductive JitCall.Ends (call : JitCall F) (fl : FloatOps F) (threads kernelHash : ℕ) :
    MapResult F → Prop
  | runtimeError {m : Mem F} {inPtr outPtr len : Addr} {fuel : ℕ} {message : String} :
      call.Placed m inPtr outPtr len →
      call.invoke fuel threads kernelHash inPtr outPtr len = some (.error message) →
      Ends call fl threads kernelHash (.runtimeError message)
  | array {calls : List (KernelCall F)} {outPtr len : Addr}
      {start t : System Addr (Val F) (Local F) (Fin calls.length)}
      {T : List (Fin calls.length × List (Access Addr (Val F)))} :
      call.Starts fl threads kernelHash calls outPtr len start →
      Sched (clifNext fl call.code.code) start T t → (∀ c, (t.threads c).ctl = .returned) →
      Ends call fl threads kernelHash (.array (elements t.mem outPtr len))
  | trapped {calls : List (KernelCall F)} {outPtr len : Addr}
      {start t : System Addr (Val F) (Local F) (Fin calls.length)}
      {T : List (Fin calls.length × List (Access Addr (Val F)))} {c : Fin calls.length}
      {f : Fault} : call.Starts fl threads kernelHash calls outPtr len start →
      Sched (clifNext fl call.code.code) start T t → (t.threads c).ctl = .faulted f →
      Ends call fl threads kernelHash (.trapped f)
  | ranOff {calls : List (KernelCall F)} {outPtr len : Addr}
      {start t : System Addr (Val F) (Local F) (Fin calls.length)}
      {T : List (Fin calls.length × List (Access Addr (Val F)))} {c : Fin calls.length}
      {rest : List (Item F)} : call.Starts fl threads kernelHash calls outPtr len start →
      Sched (clifNext fl call.code.code) start T t → (t.threads c).ctl = .at rest →
      clifNext fl call.code.code (t.threads c) = none → Ends call fl threads kernelHash .ranOff
  | hangs {calls : List (KernelCall F)} {outPtr len : Addr}
      {s : ℕ → System Addr (Val F) (Local F) (Fin calls.length)} :
      call.Starts fl threads kernelHash calls outPtr len (s 0) →
      RunsForever (clifNext fl call.code.code) s →
      (∀ n c, clifNext fl call.code.code ((s n).threads c) = none →
        ((s n).threads c).ctl = .returned) →
      Ends call fl threads kernelHash .hangs

/-- The ends of a map call on the JIT backend. -/
inductive MapEnds (fl : FloatOps F) (cast : ArrowCast F) (threads kernelHash : ℕ) (r : Router F)
    (func : PyFunc F) (iterable : PaArray F) : MapResult F → Prop
  | raised {e : MapError} : r.map fl cast func iterable = .error e →
      MapEnds fl cast threads kernelHash r func iterable (.raised e)
  | call {call : JitCall F} {result : MapResult F} :
      r.map fl cast func iterable = .ok (.jit call) → call.Ends fl threads kernelHash result →
      MapEnds fl cast threads kernelHash r func iterable result

/-- The lane of the kernel of `_detect_jit`: the first that compiles, `f64` in front. -/
def PyFunc.jitLane (fl : FloatOps F) (func : PyFunc F) : Dtype :=
  if func.compilesFor fl .f64 then .f64 else .i64

/-- The array that a kernel of the lane is called on. -/
def kernelInput (cast : ArrowCast F) (iterable : PaArray F) (lane : Dtype) :
    Except MapError (PaArray F) := do
  castToDtypeTag cast (← toArrow cast iterable) lane

/-- An array as Arrow builds it: its values are of its type, and they fit in memory together
with a result of the same length. -/
structure PaArray.Valid (arr : PaArray F) : Prop where
  typed : ∀ d, arr.type = .lane d → ∀ v ∈ arr.values, v.ty = clType d
  small : arr.values.length < 2 ^ 60

/-- What a cast returns is an array of the type that it was asked for. -/
def CastReturns (cast : ArrowCast F) : Prop :=
  ∀ arr d arr', arr.Valid → cast arr d = .ok arr' → arr'.Valid ∧ arr'.type = .lane d

/-- Python's evaluation of the function raises on an element. -/
def PyFloats.RaisesAt (py : PyFloats F) (node : FnNode F) : Val F → Prop
  | .i64 b => py.Raises node (.int b.toInt)
  | .f64 x => py.Raises node (.float x)
  | _ => False

/-- Python's evaluation of the callable raises on an element of the array. -/
def PyFunc.RaisesOn (py : PyFloats F) (func : PyFunc F) (iterable : PaArray F) : Prop :=
  ∃ node, func.node = some node ∧ ∃ x ∈ iterable.values, py.RaisesAt node x

/-! ## A call always ends somehow -/

section Totality
variable {fl : FloatOps F} {threads kernelHash : ℕ} {call : JitCall F} {cast : ArrowCast F}
  {k : Kernel F} {g : Compiled F} {arr arr' : PaArray F}

/-- An array has a place in memory. -/
theorem JitCall.exists_placed (fl : FloatOps F) (hv : call.array.Valid)
    (hty : call.array.type = .lane call.inDtype) :
    ∃ m inPtr outPtr len, call.Placed m inPtr outPtr len := by
  set n := call.array.values.length with hn
  have hsmall : n < 2 ^ 60 := hv.small
  have hlen : (BitVec.ofNat 64 n : Addr).toNat = n := by
    rw [BitVec.toNat_ofNat, Nat.mod_eq_of_lt (by omega)]
  have hout : (BitVec.ofNat 64 (8 * n) : Addr).toNat = 8 * n := by
    rw [BitVec.toNat_ofNat, Nat.mod_eq_of_lt (by omega)]
  have hzero : (0 : Addr).toNat + 8 * n ≤ 2 ^ 64 := by
    rw [show (0 : Addr).toNat = 0 from rfl]
    omega
  let m : Mem F := fun a => call.array.values.getD (a.toNat / 8) (Val.zeroOf fl .i64)
  have hm : ∀ i, (hi : i < call.array.values.length) → m (slot 0 i) = call.array.values[i] := by
    intro i hi
    have hslot : (slot 0 i).toNat / 8 = i := by
      rw [slot_toNat hzero hi]
      simp
    simp only [m, hslot, List.getD_eq_getElem?_getD, List.getElem?_eq_getElem hi, Option.getD_some]
  refine ⟨m, 0, BitVec.ofNat 64 (8 * n), BitVec.ofNat 64 n, ⟨?_, ?_, ?_, ?_⟩, ?_⟩
  · rw [hlen]
    exact hzero
  · rw [hlen, hout]
    omega
  · left
    rw [hlen, hout]
    simp
  · intro i hi
    rw [hlen] at hi
    rw [hm i hi]
    exact hv.typed _ hty _ (List.getElem_mem hi)
  · apply List.ext_getElem
    · rw [elements, List.length_map, List.length_range, hlen]
    · intro i _ hi
      simpa [elements] using hm i hi

/-- `jit_apply` finds the kernel in the registry. -/
theorem JitCall.invoke_ok (call : JitCall F) (threads kernelHash : ℕ) (inPtr outPtr len : Addr) :
    ∃ fuel calls, call.invoke fuel threads kernelHash inPtr outPtr len = some (.ok calls) :=
  ⟨len.toNat + 1, invokeKernelParallel_total (Nat.lt_succ_self _) _ _ _ _ _ _⟩

/-- A started call ends in one of the ways that are not exceptions. -/
theorem JitCall.Starts.ends {calls : List (KernelCall F)} {outPtr len : Addr}
    {start : System Addr (Val F) (Local F) (Fin calls.length)}
    (h : call.Starts fl threads kernelHash calls outPtr len start) :
    ∃ r, call.Ends fl threads kernelHash r ∧ r.isException = false := by
  by_cases hbad : ∃ T t c, Sched (clifNext fl call.code.code) start T t ∧
      clifNext fl call.code.code (t.threads c) = none ∧ (t.threads c).ctl ≠ .returned
  · obtain ⟨T, t, c, hT, hnone, hctl⟩ := hbad
    cases hc : (t.threads c).ctl with
    | returned => exact absurd hc hctl
    | faulted f => exact ⟨_, .trapped h hT hc, rfl⟩
    | «at» rest => exact ⟨_, .ranOff h hT hc hnone, rfl⟩
  · have hgood : ∀ T t, Sched (clifNext fl call.code.code) start T t → ∀ c,
        clifNext fl call.code.code (t.threads c) = none → (t.threads c).ctl = .returned := by
      intro T t hT c hnone
      by_contra hctl
      exact hbad ⟨T, t, c, hT, hnone, hctl⟩
    rcases Sched.halts_or_runsForever (clifNext fl call.code.code) start with
      ⟨T, t, hT, hhalt⟩ | ⟨s, rfl, hruns, hreach⟩
    · exact ⟨_, .array h hT fun c => hgood T t hT c (hhalt c), rfl⟩
    · refine ⟨_, .hangs h hruns fun n c => ?_, rfl⟩
      obtain ⟨T, hT⟩ := hreach n
      exact hgood T _ hT c

/-- Behind the checks no exception is left. -/
theorem JitCall.exists_ends (call : JitCall F) (fl : FloatOps F) (threads kernelHash : ℕ) (hv : call.array.Valid)
    (hty : call.array.type = .lane call.inDtype) :
    ∃ r, call.Ends fl threads kernelHash r ∧ r.isException = false := by
  obtain ⟨m, inPtr, outPtr, len, hplaced⟩ := JitCall.exists_placed fl hv hty
  obtain ⟨fuel, calls, hinvoke⟩ := call.invoke_ok threads kernelHash inPtr outPtr len
  exact JitCall.Starts.ends ⟨m, inPtr, fuel, hplaced, hinvoke, rfl⟩

end Totality

/-! ## A call on one thread -/

section OneThread
variable {fl : FloatOps F} {threads kernelHash n : ℕ} {call : JitCall F} {m m' : Mem F}
  {inPtr outPtr len : Addr} {tr : List (Access Addr (Val F))} {l : Local F}

/-- An array with fewer elements than there are threads is one call. -/
theorem JitCall.invoke_small (call : JitCall F) (kernelHash : ℕ) (inPtr outPtr : Addr)
    (hpos : len.toNat ≠ 0) (hsmall : len.toNat < max threads 1) :
    call.invoke 0 threads kernelHash inPtr outPtr len =
      some (.ok [⟨call.code, 0, len.toNat, inPtr, outPtr⟩]) := by
  simp only [JitCall.invoke, invokeKernelParallel, if_neg hpos, if_pos hsmall]

/-- The run of that call is a schedule. -/
theorem JitCall.Placed.sched (kernelHash : ℕ) (h : call.Placed m inPtr outPtr len)
    (hpos : len.toNat ≠ 0) (hsmall : len.toNat < max threads 1)
    (hrun : Takes (clifNext fl call.code.code) n (call.code.enter fl inPtr outPtr len, m) tr (l, m')) :
    ∃ calls start T t, ∃ c : Fin calls.length,
      call.Starts fl threads kernelHash calls outPtr len start ∧
      Sched (clifNext fl call.code.code) start T t ∧ t.threads c = l ∧ t.mem = m' ∧ ∀ d, d = c := by
  set calls : List (KernelCall F) := [⟨call.code, 0, len.toNat, inPtr, outPtr⟩] with hcalls
  have hstart : Sched (clifNext fl call.code.code) (spawned fl calls m) [] _ := .refl
  obtain ⟨T, t, hT, -, -, hfin⟩ := hstart.alone (i := ⟨0, Nat.one_pos⟩) hrun (by simp [spawned, hcalls])
  refine ⟨calls, _, T, t, ⟨0, Nat.one_pos⟩,
    ⟨m, inPtr, 0, h, call.invoke_small kernelHash inPtr outPtr hpos hsmall, rfl⟩, hT,
    congrArg Prod.fst hfin, congrArg Prod.snd hfin, fun d => ?_⟩
  have := d.isLt
  simp only [hcalls, List.length_singleton] at this
  exact Fin.ext (Nat.lt_one_iff.mp this)

theorem JitCall.Placed.ends_array (h : call.Placed m inPtr outPtr len) (hpos : len.toNat ≠ 0)
    (hsmall : len.toNat < max threads 1)
    (hrun : Takes (clifNext fl call.code.code) n (call.code.enter fl inPtr outPtr len, m) tr (l, m'))
    (hret : l.ctl = .returned) :
    call.Ends fl threads kernelHash (.array (elements m' outPtr len)) := by
  obtain ⟨calls, start, T, t, c, hstart, hT, hl, hm, honly⟩ :=
    h.sched kernelHash hpos hsmall hrun
  rw [← hm]
  refine .array hstart hT fun d => ?_
  rw [honly d, hl, hret]

theorem JitCall.Placed.ends_trapped (h : call.Placed m inPtr outPtr len) (hpos : len.toNat ≠ 0)
    (hsmall : len.toNat < max threads 1) {f : Fault}
    (hrun : Takes (clifNext fl call.code.code) n (call.code.enter fl inPtr outPtr len, m) tr (l, m'))
    (hf : l.ctl = .faulted f) : call.Ends fl threads kernelHash (.trapped f) := by
  obtain ⟨calls, start, T, t, c, hstart, hT, hl, -, -⟩ :=
    h.sched kernelHash hpos hsmall hrun
  exact .trapped hstart hT (hl ▸ hf)

end OneThread

/-! ## Errors of the function are not reported -/

section Theorem
variable {py : PyFloats F} {fl : FloatOps F} {cast : ArrowCast F} {arr arr' iterable : PaArray F}
  {func : PyFunc F} {decision : BackendDecision F} {r r' : Router F} {d : Dtype}

theorem castToDtypeTag_valid (hcast : CastReturns cast) (hv : arr.Valid)
    (h : castToDtypeTag cast arr d = .ok arr') : arr'.Valid ∧ arr'.type = .lane d := by
  unfold castToDtypeTag at h
  split at h
  · rename_i hty
    cases h
    exact ⟨hv, hty⟩
  · cases hc : cast arr d with
    | error e =>
      rw [hc] at h
      cases h
    | ok a =>
      rw [hc] at h
      cases h
      exact hcast _ _ _ hv hc

theorem toArrow_valid (hcast : CastReturns cast) (hv : iterable.Valid)
    (h : toArrow cast iterable = .ok arr) : arr.Valid ∧ ∃ d, arr.type = .lane d := by
  cases hty : iterable.type with
  | lane d =>
    simp only [toArrow, hty] at h
    cases h
    exact ⟨hv, d, hty⟩
  | float32 | other =>
    simp only [toArrow, hty] at h
    split at h
    · rename_i hc
      cases h
      obtain ⟨hvalid, hlane⟩ := hcast _ _ _ hv hc
      exact ⟨hvalid, _, hlane⟩
    · cases h
    · cases h

theorem kernelInput_valid (hcast : CastReturns cast) (hv : iterable.Valid)
    (h : kernelInput cast iterable d = .ok arr) : arr.Valid ∧ arr.type = .lane d := by
  obtain ⟨a, ha, h⟩ := Except.bind_eq_ok.mp h
  exact castToDtypeTag_valid hcast (toArrow_valid hcast hv ha).1 h

/-- `jit_apply` has nothing to add to the cast in front of it. -/
theorem BackendDecision.dispatch_of_jit {kernel : Kernel F} {code : Compiled F} {out : Dtype}
    (hcast : CastReturns cast) (hv : arr.Valid)
    (hfast : decision.fastPath = some (.jit kernel code d out)) :
    decision.dispatch cast arr =
      (castToDtypeTag cast arr d).map fun arr => .jit ⟨kernel, code, d, out, arr⟩ := by
  simp only [BackendDecision.dispatch, hfast]
  cases hc : castToDtypeTag cast arr d with
  | error e => rfl
  | ok a =>
    have hty := (castToDtypeTag_valid hcast hv hc).2
    simp only [bind, Except.bind, jitApply, hty, if_true]
    rfl

/-- On its way to the kernel that `_detect_jit` has chosen an array meets two casts, and
`jit_apply` has nothing to add to them. -/
theorem Router.map_jitLane (hr : Reachable (Router.step fl) Router.empty r) (hlive : func ∈ r.live)
    (hd : r.decide fl func = .ok (decision, r')) (hjit : decision.backend = .jit)
    (hcast : CastReturns cast) (hv : iterable.Valid) :
    ∃ kernel code, tryCompile fl func.node (func.jitLane fl) = .compiled kernel code ∧
      r.map fl cast func iterable = (kernelInput cast iterable (func.jitLane fl)).map fun arr =>
        .jit ⟨kernel, code, func.jitLane fl, kernel.outputDtype, arr⟩ := by
  have hdet := (Router.consistent_of_reachable hr).decide_eq hlive hd
  obtain ⟨lane, kernel, code, hk, hfast, hlane⟩ := detect_jit hdet hjit
  have hlaneEq : func.jitLane fl = lane := by
    unfold PyFunc.jitLane
    cases lane with
    | f64 => rw [if_pos (hlane.mp rfl)]
    | i64 => rw [if_neg fun h => nomatch hlane.mpr h]
  rw [hlaneEq]
  refine ⟨kernel, code, hk, ?_⟩
  simp only [Router.map, hd, Except.mapError, kernelInput]
  cases ha : toArrow cast iterable with
  | error e => rfl
  | ok arr => exact decision.dispatch_of_jit hcast (toArrow_valid hcast hv ha).1 hfast

/-- **Errors do not come back.** Whatever the router has been asked before, for a callable
that it sends to the JIT and an array with an element on which Python raises, the map call
ends in an exception, whatever the threads do, exactly when a cast in front of the kernel
has raised one. -/
theorem jit_map_raises_iff (hr : Reachable (Router.step py.fl) Router.empty r)
    (hlive : func ∈ r.live) (hd : r.decide py.fl func = .ok (decision, r'))
    (hjit : decision.backend = .jit) (hcast : CastReturns cast) (hv : iterable.Valid)
    (threads kernelHash : ℕ) :
    (func.RaisesOn py iterable → ∀ result,
        MapEnds py.fl cast threads kernelHash r func iterable result → result.isException = true) ↔
      (func.RaisesOn py iterable → ∃ e, kernelInput cast iterable (func.jitLane py.fl) = .error e) := by
  apply imp_congr_right
  intro _
  obtain ⟨kernel, code, -, hmap⟩ := Router.map_jitLane hr hlive hd hjit hcast hv
  cases hinput : kernelInput cast iterable (func.jitLane py.fl) with
  | error e =>
    rw [hinput] at hmap
    refine iff_of_true (fun result h => ?_) ⟨e, rfl⟩
    cases h with
    | raised _ => rfl
    | call hcall _ =>
      rw [hmap] at hcall
      cases hcall
  | ok arr =>
    rw [hinput] at hmap
    obtain ⟨hva, hty⟩ := kernelInput_valid hcast hv hinput
    refine iff_of_false (fun h => ?_) (by simp)
    obtain ⟨result, hends, hno⟩ := JitCall.exists_ends
      ⟨kernel, code, func.jitLane py.fl, kernel.outputDtype, arr⟩ py.fl threads kernelHash hva hty
    have hyes := h result (.call hmap hends)
    rw [hno] at hyes
    cases hyes

end Theorem

/-! ## Three callables -/

/-- `lambda x: 10 // x` -/
def tenOver : FnNode (BitVec 64) :=
  .lambda ["x"] (.binOp (.constant (.int 10)) .floorDiv (.name "x"))

def tenOverKernel : Kernel (BitVec 64) where
  inputDtype := .i64
  outputDtype := .i64
  body := [.ret (.binOp .floorDiv (.constI64 10) .param)]

/-- `def f(x):`, `if x > 0: y = x % 7`, `return y`, for `i64` only -/
def halfAssigned : FnNode (BitVec 64) :=
  .functionDef ["x"] [
    .ifStmt (.compare (.name "x") [.gt] [.constant (.int 0)])
      [.assign [.name "y"] (.binOp (.name "x") .mod (.constant (.int 7)))] [],
    .ret (some (.name "y"))]

def halfAssignedKernel : Kernel (BitVec 64) where
  inputDtype := .i64
  outputDtype := .i64
  body := [
    .ifElse (.compare .gt .param (.constI64 0)) [.assign "y" .i64 (.binOp .mod .param (.constI64 7))] [],
    .ret (.localVar "y")]

/-- `def f(x):`, `if x > 0: y = x`, `return y`, for both lanes -/
def halfCopied : FnNode (BitVec 64) :=
  .functionDef ["x"] [
    .ifStmt (.compare (.name "x") [.gt] [.constant (.int 0)]) [.assign [.name "y"] (.name "x")] [],
    .ret (some (.name "y"))]

theorem singleton_valid {d : Dtype} {x : Val F} (h : x.ty = clType d) :
    PaArray.Valid (⟨.lane d, [x]⟩ : PaArray F) where
  typed d' hd v hm := by
    cases hd
    rwa [List.mem_singleton.mp hm]
  small := by simp

/-- A map call of a new function that compiles for `i64` only. -/
theorem map_int64 {fl : FloatOps (BitVec 64)} {cast : ArrowCast (BitVec 64)} (hcast : CastReturns cast)
    {func : PyFunc (BitVec 64)} {k : Kernel (BitVec 64)} {g : Compiled (BitVec 64)} (b : BitVec 64)
    (htry : tryCompile fl func.node .i64 = .compiled k g) (hlane : func.jitLane fl = .i64)
    (hjit : ((routerOf func).decide fl func).toOption.map (·.1.backend) = some .jit) :
    (routerOf func).map fl cast func ⟨.lane .i64, [.i64 b]⟩ =
      .ok (.jit ⟨k, g, .i64, k.outputDtype, ⟨.lane .i64, [.i64 b]⟩⟩) := by
  obtain ⟨decision, r', hd, hback⟩ := exists_decision hjit
  obtain ⟨kernel, code, hk, hmap⟩ := Router.map_jitLane (routerOf_reachable fl func)
    List.mem_cons_self hd hback hcast (singleton_valid (d := .i64) (x := .i64 b) rfl)
  rw [hlane] at hk hmap
  rw [htry] at hk
  cases hk
  exact hmap

theorem tenOver_compiles : ∃ g, compileScalar pyHostFloats tenOverKernel = .ok g ∧
    tryCompile pyHostFloats (some tenOver) .i64 = .compiled tenOverKernel g := by
  cases hc : compileScalar pyHostFloats tenOverKernel with
  | error e =>
    have hok : (compileScalar pyHostFloats tenOverKernel).toBool = true := by decide
    rw [hc] at hok
    cases hok
  | ok g =>
    have hwalk : walkFunction .i64 tenOver = some tenOverKernel := rfl
    have hcompile : compile pyHostFloats tenOverKernel = .ok g := hc
    refine ⟨g, rfl, ?_⟩
    simp only [tryCompile, Option.bind_some, hwalk, hcompile]
    rfl

theorem tenOver_raises : (plainFunc tenOver).RaisesOn hostPython ⟨.lane .i64, [.i64 0]⟩ :=
  ⟨tenOver, rfl, _, List.mem_singleton_self _, 0, .zeroDivisionError, by decide, rfl⟩

theorem jitMap_tenOver_traps {cast : ArrowCast (BitVec 64)} (hcast : CastReturns cast) :
    MapEnds pyHostFloats cast 4 0 (routerOf (plainFunc tenOver)) (plainFunc tenOver)
      ⟨.lane .i64, [.i64 0]⟩ (.trapped (.trap .intDivByZero)) := by
  obtain ⟨g, hc, htry⟩ := tenOver_compiles
  have hb : Buffers (fun _ => .i64 0 : Mem (BitVec 64)) 0 1024 1 (clType tenOverKernel.inputDtype) :=
    ⟨by decide, by decide, by decide, fun _ _ => rfl⟩
  have hfault : ∀ ρ, (tenOverKernel.sem pyHostFloats false (.i64 0)).Computes tenOverKernel.body ρ
      (.fault (.trap .intDivByZero)) := fun ρ => .ends (n := 1) rfl rfl
  have hruns := compileScalar_maps hc (R := fun x r =>
      ∀ ρ, (tenOverKernel.sem pyHostFloats false x).Computes tenOverKernel.body ρ r)
    (fun h => h) hb (r := .fault (.trap .intDivByZero)) (MapsTo.fault hfault)
  cases hruns with
  | fault hrun hf =>
    exact .call (map_int64 hcast 0 htry (by decide +kernel) (by decide +kernel))
      (JitCall.Placed.ends_trapped ⟨hb, rfl⟩ (by decide) (by decide) hrun hf)

theorem halfAssigned_raises : (plainFunc halfAssigned).RaisesOn hostPython ⟨.lane .i64, [.i64 (-1)]⟩ :=
  ⟨halfAssigned, rfl, _, List.mem_singleton_self _, 0, .unboundLocalError "y", by decide, rfl⟩

/-- The local reads as zero. -/
theorem jitMap_halfAssigned_returns {cast : ArrowCast (BitVec 64)} (hcast : CastReturns cast) :
    MapEnds pyHostFloats cast 4 0 (routerOf (plainFunc halfAssigned)) (plainFunc halfAssigned)
      ⟨.lane .i64, [.i64 (-1)]⟩ (.array [.i64 0]) := by
  have hwalk : walkFunction .i64 halfAssigned = some halfAssignedKernel := rfl
  let m : Mem (BitVec 64) := fun _ => .i64 (-1)
  let finishes : Local (BitVec 64) × Mem (BitVec 64) → Bool := fun c =>
    (match c.1.ctl with
      | .returned => true
      | _ => false) && decide (elements c.2 1024 1 = [.i64 0])
  have hruns : ((compileScalar pyHostFloats halfAssignedKernel).toOption.any fun g =>
      finishes (runFor (clifNext pyHostFloats g.code) 60 (g.enter pyHostFloats 0 1024 1, m)).2) = true := by
    decide +kernel
  cases hc : compileScalar pyHostFloats halfAssignedKernel with
  | error e =>
    rw [hc] at hruns
    cases hruns
  | ok g =>
    rw [hc] at hruns
    have hcompile : compile pyHostFloats halfAssignedKernel = .ok g := hc
    have htry : tryCompile pyHostFloats (some halfAssigned) .i64 = .compiled halfAssignedKernel g := by
      simp only [tryCompile, Option.bind_some, hwalk, hcompile]
      rfl
    have hb : Buffers m 0 1024 1 .i64 := ⟨by decide, by decide, by decide, fun _ _ => rfl⟩
    obtain ⟨n, hrun⟩ := takes_runFor (clifNext pyHostFloats g.code) 60 (g.enter pyHostFloats 0 1024 1, m)
    obtain ⟨hret, hout⟩ := Bool.and_eq_true_iff.mp hruns
    rw [← of_decide_eq_true hout]
    refine .call (map_int64 hcast _ htry (by decide +kernel) (by decide +kernel)) ?_
    refine JitCall.Placed.ends_array ⟨hb, rfl⟩ (by decide) (by decide) hrun ?_
    split at hret
    · assumption
    · cases hret

/-- `10 // x` on `[0]` kills the process, and a local without a value is returned as `0`. -/
theorem jit_map_swallows_errors :
    ((plainFunc tenOver).RaisesOn hostPython ⟨.lane .i64, [.i64 0]⟩ ∧
      ∀ cast, CastReturns cast → MapEnds pyHostFloats cast 4 0 (routerOf (plainFunc tenOver))
        (plainFunc tenOver) ⟨.lane .i64, [.i64 0]⟩ (.trapped (.trap .intDivByZero))) ∧
    (plainFunc halfAssigned).RaisesOn hostPython ⟨.lane .i64, [.i64 (-1)]⟩ ∧
      ∀ cast, CastReturns cast → MapEnds pyHostFloats cast 4 0 (routerOf (plainFunc halfAssigned))
        (plainFunc halfAssigned) ⟨.lane .i64, [.i64 (-1)]⟩ (.array [.i64 0]) :=
  ⟨⟨tenOver_raises, fun _ => jitMap_tenOver_traps⟩,
    halfAssigned_raises, fun _ => jitMap_halfAssigned_returns⟩

/-- A cast that only passes on arrays of the right type. -/
def strictCast {F : Type} : ArrowCast F := fun arr d =>
  if arr.type = .lane d then .ok arr else .error (.arrowInvalid "unsafe cast")

theorem strictCast_returns : CastReturns (strictCast (F := F)) := by
  intro arr d arr' hv h
  unfold strictCast at h
  split at h
  · rename_i hty
    cases h
    exact ⟨hv, hty⟩
  · cases h

theorem safeCast_returns (fl : FloatOps F) : CastReturns (safeCast fl) := by
  intro arr d arr' hv h
  unfold safeCast at h
  split at h
  · rename_i hty _
    cases h
    refine ⟨⟨fun d hd v hm => ?_, by simpa using hv.small⟩, rfl⟩
    cases hd
    obtain ⟨w, hw, rfl⟩ := List.mem_map.mp hm
    have hwty := hv.typed _ hty w hw
    cases w with
    | i64 b => rfl
    | i8 _ | f64 _ | i64x2 _ _ | f64x2 _ _ => cases hwty
  · cases h
  · cases h

/-- The error of `10 // x` on `[0]` is lost. That of `halfCopied` on `-(2 ** 53 + 1)` is not:
its kernel is of the `f64` lane, and the cast refuses the integer. -/
theorem jit_map_raises_iff_both :
    (¬ ((plainFunc tenOver).RaisesOn hostPython ⟨.lane .i64, [.i64 0]⟩ → ∀ result,
      MapEnds hostPython.fl (safeCast hostPython.fl) 4 0 (routerOf (plainFunc tenOver))
        (plainFunc tenOver) ⟨.lane .i64, [.i64 0]⟩ result → result.isException = true)) ∧
    (plainFunc halfCopied).RaisesOn hostPython ⟨.lane .i64, [.i64 (-9007199254740993)]⟩ ∧
      ∀ result, MapEnds hostPython.fl (safeCast hostPython.fl) 4 0 (routerOf (plainFunc halfCopied))
        (plainFunc halfCopied) ⟨.lane .i64, [.i64 (-9007199254740993)]⟩ result →
          result.isException = true := by
  constructor
  · obtain ⟨decision, r', hd, hjit⟩ : ∃ decision r',
        (routerOf (plainFunc tenOver)).decide hostPython.fl (plainFunc tenOver) = .ok (decision, r') ∧
          decision.backend = .jit := exists_decision (by decide +kernel)
    intro h
    obtain ⟨e, he⟩ := (jit_map_raises_iff (routerOf_reachable _ _) List.mem_cons_self hd hjit
      (safeCast_returns _) (singleton_valid rfl) 4 0).mp h tenOver_raises
    have hlane : (plainFunc tenOver).jitLane hostPython.fl = .i64 := by decide +kernel
    rw [hlane] at he
    cases he
  · obtain ⟨decision, r', hd, hjit⟩ : ∃ decision r',
        (routerOf (plainFunc halfCopied)).decide hostPython.fl (plainFunc halfCopied) =
          .ok (decision, r') ∧ decision.backend = .jit := exists_decision (by decide +kernel)
    have hraises : (plainFunc halfCopied).RaisesOn hostPython
        ⟨.lane .i64, [.i64 (-9007199254740993)]⟩ :=
      ⟨halfCopied, rfl, _, List.mem_singleton_self _, 0, .unboundLocalError "y", by decide, rfl⟩
    have hlane : (plainFunc halfCopied).jitLane hostPython.fl = .f64 := by decide +kernel
    refine ⟨hraises, (jit_map_raises_iff (routerOf_reachable _ _) List.mem_cons_self hd hjit
      (safeCast_returns _) (singleton_valid rfl) 4 0).mpr (fun _ => ?_) hraises⟩
    rw [hlane]
    exact ⟨_, rfl⟩

end Gilmap
